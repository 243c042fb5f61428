import OnlyDoge.Library.Job
set_option autoImplicit false

/-!
Weakest preconditions of jobs. A postcondition has three parts: what holds with the value,
what holds when the job fails, and what holds wherever the process can die.
-/

namespace Job
variable {σ τ ε α β : Type}

def Ends (Q : α → σ → Prop) (E : Failure ε → σ → Prop) (K : σ → Prop) :
    Outcome ε α × σ × List Fate → Prop
  | (.value a,s,_) => Q a s
  | (.failed e,s,_) => E e s
  | (.halted,s,_) => K s

/-- However the calls of `m` fare, `m` started in `s` ends as the three parts say. -/
def wp (m : Job σ ε α) (Q : α → σ → Prop) (E : Failure ε → σ → Prop) (K : σ → Prop)
    (s : σ) : Prop :=
  ∀ fates : List Fate, Ends Q E K (m.run s fates)

variable {Q : α → σ → Prop} {E : Failure ε → σ → Prop} {K : σ → Prop} {s : σ}

theorem wp_mono {Q' : α → σ → Prop} {E' : Failure ε → σ → Prop} {K' : σ → Prop}
    {m : Job σ ε α} (h : wp m Q E K s) (hQ : ∀ a s', Q a s' → Q' a s')
    (hE : ∀ e s', E e s' → E' e s') (hK : ∀ s', K s' → K' s') :
    wp m Q' E' K' s := by
  intro fates
  have hends := h fates
  rcases hr : m.run s fates with ⟨o,s',rest⟩
  rw [hr] at hends
  cases o with
  | value a => exact hQ a s' hends
  | failed e => exact hE e s' hends
  | halted => exact hK s' hends

theorem wp_and {Q' : α → σ → Prop} {E' : Failure ε → σ → Prop} {K' : σ → Prop}
    {m : Job σ ε α} (h : wp m Q E K s) (h' : wp m Q' E' K' s) :
    wp m (fun a t => Q a t ∧ Q' a t) (fun e t => E e t ∧ E' e t) (fun t => K t ∧ K' t) s := by
  intro fates
  have hends := h fates
  have hends' := h' fates
  rcases hr : m.run s fates with ⟨o,s',rest⟩
  rw [hr] at hends hends'
  cases o with
  | value a => exact ⟨hends,hends'⟩
  | failed e => exact ⟨hends,hends'⟩
  | halted => exact ⟨hends,hends'⟩

theorem wp_true (m : Job σ ε α) :
    wp m (fun _ _ => True) (fun _ _ => True) (fun _ => True) s := by
  intro fates
  rcases m.run s fates with ⟨o,s',rest⟩
  cases o <;> trivial

theorem wp_pure {a : α} (h : Q a s) : wp (Pure.pure a : Job σ ε α) Q E K s :=
  fun _ => h

theorem wp_throw {e : ε} (h : E (.thrown e) s) : wp (throw e : Job σ ε α) Q E K s :=
  fun _ => h

theorem wp_bind {m : Job σ ε α} {f : α → Job σ ε β} {Q : β → σ → Prop}
    (h : wp m (fun a => wp (f a) Q E K) E K s) : wp (m >>= f) Q E K s := by
  intro fates
  have hends := h fates
  change Ends Q E K (runBind m f s fates)
  unfold runBind
  rcases hr : m.run s fates with ⟨o,s',rest⟩
  rw [hr] at hends
  cases o with
  | value a => exact hends rest
  | failed e => exact hends
  | halted => exact hends

theorem wp_call {f : σ → α × σ} (hdone : Q (f s).1 (f s).2) (hlost : E .fault (f s).2)
    (hrefused : E .fault s) (hkilled : K s) : wp (call f) Q E K s := by
  intro fates
  cases fates with
  | nil => exact hdone
  | cons fate rest => cases fate with
    | done => exact hdone
    | lost => exact hlost
    | refused => exact hrefused
    | killed => exact hkilled

theorem wp_read {f : σ → α} (hdone : Q (f s) s) (hfault : E .fault s) (hkilled : K s) :
    wp (read f) Q E K s :=
  wp_call hdone hfault hfault hkilled

theorem wp_write {f : σ → σ} {Q : Unit → σ → Prop} (hdone : Q () (f s))
    (hlost : E .fault (f s)) (hrefused : E .fault s) (hkilled : K s) :
    wp (write f) Q E K s :=
  wp_call hdone hlost hrefused hkilled

theorem wp_assign {f : σ → σ} {Q : Unit → σ → Prop} (h : Q () (f s)) :
    wp (assign f : Job σ ε Unit) Q E K s :=
  fun _ => h

theorem wp_look {f : σ → α} (h : Q (f s) s) : wp (look f : Job σ ε α) Q E K s :=
  fun _ => h

theorem wp_ofExcept {x : Except ε α} (hok : ∀ a, x = .ok a → Q a s)
    (herror : ∀ e, x = .error e → E (.thrown e) s) : wp (ofExcept x) Q E K s := by
  cases x with
  | ok a => exact wp_pure (hok a rfl)
  | error e => exact wp_throw (herror e rfl)

theorem wp_ite {p : Prop} [Decidable p] {m n : Job σ ε α} (hm : p → wp m Q E K s)
    (hn : ¬p → wp n Q E K s) : wp (if p then m else n) Q E K s := by
  split
  · exact hm ‹_›
  · exact hn ‹_›

theorem wp_when {p : Prop} [Decidable p] {m : Job σ ε Unit} {Q : Unit → σ → Prop}
    (hm : p → wp m Q E K s) (hn : ¬p → Q () s) : wp (when p m) Q E K s :=
  wp_ite hm (fun h => wp_pure (hn h))

theorem wp_attempt {m : Job σ ε α} {Q : Except (Failure ε) α → σ → Prop}
    (h : wp m (fun a => Q (.ok a)) (fun e => Q (.error e)) K s) :
    wp (attempt m) Q E K s := by
  intro fates
  have hends := h fates
  change Ends Q E K (runAttempt m s fates)
  unfold runAttempt
  rcases hr : m.run s fates with ⟨o,s',rest⟩
  rw [hr] at hends
  cases o with
  | value a => exact hends
  | failed e => exact hends
  | halted => exact hends

theorem wp_catchThrown {m : Job σ ε α} {handler : ε → Job σ ε α}
    (h : wp m Q (fun e t => match e with
      | .fault => E .fault t
      | .thrown e => wp (handler e) Q E K t) K s) :
    wp (catchThrown m handler) Q E K s := by
  intro fates
  have hends := h fates
  change Ends Q E K (runCatchThrown m handler s fates)
  unfold runCatchThrown
  rcases hr : m.run s fates with ⟨o,s',rest⟩
  rw [hr] at hends
  cases o with
  | value a => exact hends
  | halted => exact hends
  | failed e =>
    cases e with
    | fault => exact hends
    | thrown e => exact hends rest

theorem wp_onFailure {m : Job σ ε α} {cleanup : Job σ ε Unit}
    (h : wp m Q (fun e => wp cleanup (fun _ => E e) E K) K s) :
    wp (onFailure m cleanup) Q E K s := by
  intro fates
  have hends := h fates
  change Ends Q E K (runOnFailure m cleanup s fates)
  unfold runOnFailure
  rcases hr : m.run s fates with ⟨o,s',rest⟩
  rw [hr] at hends
  cases o with
  | value a => exact hends
  | halted => exact hends
  | failed e =>
    have hends' := hends rest
    rcases hc : cleanup.run s' rest with ⟨o',s'',rest'⟩
    rw [hc] at hends'
    simp only [hc]
    cases o' with
    | value u => exact hends'
    | failed e' => exact hends'
    | halted => exact hends'

theorem wp_zoom {part : StatePart σ τ} {m : Job τ ε α}
    (h : wp m (fun a t => Q a (part.put t s)) (fun e t => E e (part.put t s))
      (fun t => K (part.put t s)) (part.get s)) : wp (zoom part m) Q E K s := by
  intro fates
  have hends := h fates
  change Ends Q E K (runZoom part m s fates)
  unfold runZoom
  rcases hr : m.run (part.get s) fates with ⟨o,t,rest⟩
  rw [hr] at hends
  cases o with
  | value a => exact hends
  | failed e => exact hends
  | halted => exact hends

/-- The loop rule: `I` holds of the state when `done` is what has been passed. -/
theorem wp_forEach {xs : List β} {f : β → Job σ ε Unit} (I : List β → σ → Prop)
    (hstep : ∀ passed x ahead t, xs = passed ++ x :: ahead → I passed t →
      wp (f x) (fun _ => I (passed ++ [x])) E K t)
    (hinit : I [] s) : wp (forEach xs f) (fun _ => I xs) E K s := by
  suffices h : ∀ ahead passed t, xs = passed ++ ahead → I passed t →
      wp (forEach ahead f) (fun _ => I xs) E K t from h xs [] s rfl hinit
  intro ahead
  induction ahead with
  | nil =>
    intro passed t hxs ht
    rw [List.append_nil] at hxs
    subst hxs
    exact wp_pure ht
  | cons x ahead ih =>
    intro passed t hxs ht
    refine wp_bind (wp_mono (hstep passed x ahead t hxs ht) ?_ (fun _ _ h => h) (fun _ h => h))
    intro _ t' ht'
    exact ih (passed ++ [x]) t' (by simp [hxs]) ht'

theorem run_forEach_append (xs ys : List β) (f : β → Job σ ε Unit) (s : σ) (fates : List Fate) :
    (forEach (xs ++ ys) f).run s fates =
      (forEach xs f >>= fun _ => forEach ys f).run s fates := by
  induction xs generalizing s fates with
  | nil => rfl
  | cons x xs ih =>
    change runBind (f x) (fun _ => forEach (xs ++ ys) f) s fates =
      runBind (bind (f x) (fun _ => forEach xs f)) (fun _ => forEach ys f) s fates
    simp only [runBind,bind]
    rcases (f x).run s fates with ⟨outcome,t,rest⟩
    cases outcome with
    | value u => exact ih t rest
    | failed e => rfl
    | halted => rfl

theorem wp_forEach_append {xs ys : List β} {f : β → Job σ ε Unit} {Q : Unit → σ → Prop}
    (h : wp (forEach xs f) (fun _ => wp (forEach ys f) Q E K) E K s) :
    wp (forEach (xs ++ ys) f) Q E K s := by
  intro fates
  rw [run_forEach_append]
  exact wp_bind h fates

theorem wp_forEach_write {steps : List (σ → σ)} {Q : Unit → σ → Prop}
    (hdone : Q () (steps.foldl (fun t f => f t) s))
    (hcut : ∀ passed ahead, steps = passed ++ ahead →
      E .fault (passed.foldl (fun t f => f t) s) ∧ K (passed.foldl (fun t f => f t) s)) :
    wp (forEach steps write) Q E K s := by
  refine wp_mono (wp_forEach (fun passed t => t = passed.foldl (fun t f => f t) s) ?_ rfl)
    ?_ (fun _ _ h => h) (fun _ h => h)
  · rintro passed f ahead t hsteps rfl
    obtain ⟨hfault,hkill⟩ := hcut passed (f::ahead) hsteps
    have hnext := hcut (passed ++ [f]) ahead (by simp [hsteps])
    rw [List.foldl_append] at hnext
    exact wp_write (by simp) hnext.1 hfault hkill
  · rintro - t rfl
    exact hdone

theorem wp_settleAll_cons {m : Job σ ε Unit} {rest : List (Job σ ε Unit)} {Q : Unit → σ → Prop}
    (h : wp m (fun _ => wp (settleAll rest) Q E K)
      (fun e => wp (settleAll rest) (fun _ => E e) (fun _ => E e) K) K s) :
    wp (settleAll (m::rest)) Q E K s := by
  refine wp_bind (wp_onFailure (wp_mono h (fun _ _ h => h) ?_ (fun _ h => h)))
  intro e t ht
  refine wp_bind (wp_attempt (wp_mono ht ?_ ?_ (fun _ h => h)))
  · exact fun _ t' ht' => wp_pure ht'
  · exact fun _ t' ht' => wp_pure ht'

theorem ends_of_wp {m : Job σ ε α} (h : wp m Q E K s) :
    (∃ a t, m.run s [] = (.value a,t,[]) ∧ Q a t) ∨
      ∃ e t, m.run s [] = (.failed (.thrown e),t,[]) ∧ E (.thrown e) t := by
  have hends := h []
  obtain ⟨hclean,hrest⟩ := m.clean s
  rcases hr : m.run s [] with ⟨o,t,rest⟩
  rw [hr] at hends hclean hrest
  simp only at hrest
  subst hrest
  cases o with
  | value a => exact Or.inl ⟨a,t,rfl,hends⟩
  | failed e =>
    cases e with
    | fault => exact absurd hclean id
    | thrown e => exact Or.inr ⟨e,t,rfl,hends⟩
  | halted => exact absurd hclean id

theorem succeeds_of_wp {m : Job σ ε α} (h : wp m Q (fun e _ => e = .fault) K s) :
    ∃ a t, m.run s [] = (.value a,t,[]) ∧ Q a t := by
  rcases ends_of_wp h with hvalue | ⟨e,t,-,he⟩
  · exact hvalue
  · cases he

theorem value_of_wp {m : Job σ ε α} (h : wp m Q E K s) {fates rest : List Fate} {a : α}
    {t : σ} (hr : m.run s fates = (.value a,t,rest)) : Q a t := by
  have hends := h fates
  rw [hr] at hends
  exact hends

end Job
