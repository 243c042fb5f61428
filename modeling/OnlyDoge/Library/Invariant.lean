import OnlyDoge.Library.Precondition
set_option autoImplicit false

/-! Jobs that keep an invariant wherever they end, fail or die. -/

namespace Job
variable {σ τ ε α β : Type}

def Keeps (I : σ → Prop) (m : Job σ ε α) : Prop :=
  ∀ s, I s → wp m (fun _ => I) (fun _ => I) I s

variable {I : σ → Prop}

/-- Where a job ends, fails or dies in `I`, its last state is in `I`. -/
theorem last_of_wp {m : Job σ ε α} {s : σ} (h : wp m (fun _ => I) (fun _ => I) I s)
    (fates : List Fate) : I (m.run s fates).2.1 := by
  have hends := h fates
  rcases hrun : m.run s fates with ⟨outcome,t,rest⟩
  rw [hrun] at hends
  cases outcome with
  | value a => exact hends
  | failed e => exact hends
  | halted => exact hends

theorem keeps_pure (a : α) : Keeps I (Pure.pure a : Job σ ε α) := fun _ h => wp_pure h

theorem keeps_throw (e : ε) : Keeps I (throw e : Job σ ε α) := fun _ h => wp_throw h

theorem keeps_bind {m : Job σ ε α} {f : α → Job σ ε β} (hm : Keeps I m) (hf : ∀ a, Keeps I (f a)) :
    Keeps I (m >>= f) := fun s h =>
  wp_bind (wp_mono (hm s h) (fun a t ht => hf a t ht) (fun _ _ ht => ht) (fun _ ht => ht))

theorem keeps_call {f : σ → α × σ} (hf : ∀ s, I s → I (f s).2) :
    Keeps I (call f : Job σ ε α) := fun s h => wp_call (hf s h) (hf s h) h h

theorem keeps_read (f : σ → α) : Keeps I (read f : Job σ ε α) := fun _ h => wp_read h h h

theorem keeps_write {f : σ → σ} (hf : ∀ s, I s → I (f s)) : Keeps I (write f : Job σ ε Unit) :=
  fun s h => wp_write (hf s h) (hf s h) h h

theorem keeps_assign {f : σ → σ} (hf : ∀ s, I s → I (f s)) : Keeps I (assign f : Job σ ε Unit) :=
  fun s h => wp_assign (hf s h)

theorem keeps_look (f : σ → α) : Keeps I (look f : Job σ ε α) := fun _ h => wp_look h

theorem keeps_ofExcept (x : Except ε α) : Keeps I (ofExcept x : Job σ ε α) :=
  fun _ h => wp_ofExcept (fun _ _ => h) (fun _ _ => h)

theorem keeps_ite {p : Prop} [Decidable p] {m n : Job σ ε α} (hm : p → Keeps I m)
    (hn : ¬p → Keeps I n) : Keeps I (if p then m else n) :=
  fun s h => wp_ite (fun hp => hm hp s h) (fun hp => hn hp s h)

theorem keeps_when {p : Prop} [Decidable p] {m : Job σ ε Unit} (hm : p → Keeps I m) :
    Keeps I (when p m) := keeps_ite hm (fun _ => keeps_pure ())

theorem keeps_attempt {m : Job σ ε α} (hm : Keeps I m) : Keeps I (attempt m) :=
  fun s h => wp_attempt (hm s h)

theorem keeps_catchThrown {m : Job σ ε α} {handler : ε → Job σ ε α} (hm : Keeps I m)
    (hh : ∀ e, Keeps I (handler e)) : Keeps I (catchThrown m handler) := by
  intro s h
  refine wp_catchThrown (wp_mono (hm s h) (fun _ _ ht => ht) ?_ (fun _ ht => ht))
  intro e t ht
  cases e with
  | fault => exact ht
  | thrown e => exact hh e t ht

theorem keeps_onFailure {m : Job σ ε α} {cleanup : Job σ ε Unit} (hm : Keeps I m)
    (hc : Keeps I cleanup) : Keeps I (onFailure m cleanup) := fun s h =>
  wp_onFailure (wp_mono (hm s h) (fun _ _ ht => ht) (fun _ t ht => hc t ht) (fun _ ht => ht))

theorem keeps_forEach {xs : List β} {f : β → Job σ ε Unit} (hf : ∀ x ∈ xs, Keeps I (f x)) :
    Keeps I (forEach xs f) := fun _ h =>
  wp_forEach (fun _ => I) (fun _ x _ t hxs ht => hf x (by simp [hxs]) t ht) h

theorem keeps_settleAll {ms : List (Job σ ε Unit)} (hm : ∀ m ∈ ms, Keeps I m) :
    Keeps I (settleAll ms) := by
  induction ms with
  | nil => exact keeps_pure ()
  | cons m ms ih =>
    have hrest : Keeps I (settleAll ms) := ih (fun x hx => hm x (List.mem_cons_of_mem _ hx))
    refine keeps_bind (keeps_onFailure (hm m List.mem_cons_self) ?_) (fun _ => hrest)
    exact keeps_bind (keeps_attempt hrest) (fun _ => keeps_pure ())

theorem keeps_zoom {part : StatePart σ τ} {m : Job τ ε α}
    (hm : ∀ s, I s → Keeps (fun t => I (part.put t s)) m) : Keeps I (zoom part m) := by
  intro s h
  refine wp_zoom (hm s h (part.get s) ?_)
  simpa only [part.put_get] using h

theorem wp_settleAll_write {steps : List (σ → σ)} {s : σ}
    (hsteps : ∀ step ∈ steps, ∀ s, I s → I (step s)) (hs : I s) :
    wp (settleAll (steps.map write) : Job σ ε Unit) (fun _ => I)
      (fun e t => e = .fault ∧ I t) I s := by
  induction steps generalizing s with
  | nil => exact wp_pure hs
  | cons step steps ih =>
    have ih {t : σ} (ht : I t) :=
      @ih t (fun step hstep => hsteps step (List.mem_cons_of_mem _ hstep)) ht
    have hstep := hsteps step List.mem_cons_self s hs
    have hfailed {t : σ} (ht : I t) : wp (settleAll (steps.map write) : Job σ ε Unit)
        (fun _ t => (.fault : Failure ε) = .fault ∧ I t)
        (fun _ t => (.fault : Failure ε) = .fault ∧ I t) I t :=
      wp_mono (ih ht) (fun _ _ h => ⟨rfl,h⟩) (fun _ _ h => ⟨rfl,h.2⟩) (fun _ h => h)
    exact wp_settleAll_cons (wp_write (ih hstep) (hfailed hstep) (hfailed hs) hs)

/-- Writes that have all ended without a failure have all been made. -/
theorem wp_settleAll_made {steps : List (σ → σ)} {s : σ} :
    wp (settleAll (steps.map write) : Job σ ε Unit)
      (fun _ t => t = steps.foldl (fun t step => step t) s) (fun _ _ => True) (fun _ => True)
      s := by
  induction steps generalizing s with
  | nil => exact wp_pure rfl
  | cons step steps ih =>
    have hfailed {t : σ} : wp (settleAll (steps.map write) : Job σ ε Unit)
        (fun _ _ => True) (fun _ _ => True) (fun _ => True) t := wp_true _
    exact wp_settleAll_cons (wp_write ih hfailed hfailed trivial)

end Job
