import OnlyDoge.Library.Precondition
set_option autoImplicit false

/-! The runs of a job in which no call fails. -/

namespace Job
variable {σ ε α β : Type}

/-- Undisturbed, the job started in `s` returns `a` and leaves `t`. -/
def Returns (m : Job σ ε α) (s : σ) (a : α) (t : σ) : Prop :=
  m.run s [] = (.value a,t,[])

instance [DecidableEq σ] [DecidableEq ε] [DecidableEq α] (m : Job σ ε α) (s : σ) (a : α) (t : σ) :
    Decidable (Returns m s a t) :=
  inferInstanceAs (Decidable (_ = _))

variable {s t u : σ} {a : α} {b : β}

theorem returns_pure {a' : α} : Returns (Pure.pure a' : Job σ ε α) s a t ↔ a = a' ∧ t = s := by
  constructor
  · intro h
    cases h
    exact ⟨rfl,rfl⟩
  · rintro ⟨rfl,rfl⟩
    rfl

theorem returns_bind {m : Job σ ε α} {f : α → Job σ ε β} :
    Returns (m >>= f) s b u ↔ ∃ a t, Returns m s a t ∧ Returns (f a) t b u := by
  have hclean := m.clean s
  constructor
  · intro h
    change runBind m f s [] = _ at h
    unfold runBind at h
    rcases hr : m.run s [] with ⟨o,t,rest⟩
    rw [hr] at h hclean
    obtain rfl : rest = [] := hclean.2
    cases o with
    | value a => exact ⟨a,t,hr,h⟩
    | failed e => cases h
    | halted => cases h
  · rintro ⟨a,t,hm,hf⟩
    change runBind m f s [] = _
    unfold runBind
    rw [show m.run s [] = _ from hm]
    exact hf

theorem returns_read {f : σ → α} : Returns (read f : Job σ ε α) s a t ↔ a = f s ∧ t = s := by
  constructor
  · intro h
    cases h
    exact ⟨rfl,rfl⟩
  · rintro ⟨rfl,rfl⟩
    rfl

theorem returns_ofExcept {x : Except ε α} :
    Returns (ofExcept x) s a t ↔ x = .ok a ∧ t = s := by
  cases x with
  | error e => exact ⟨fun h => (by cases h),fun h => (by cases h.1)⟩
  | ok a' =>
    refine returns_pure.trans ?_
    rw [Except.ok.injEq,eq_comm]

theorem returns_when {p : Prop} [Decidable p] {m : Job σ ε Unit} :
    Returns (when p m) s () t ↔ if p then Returns m s () t else t = s := by
  unfold when
  split
  · rfl
  · exact returns_pure.trans (and_iff_right rfl)

/-- Undisturbed, the job started in `s` throws `e` and leaves `t`. -/
def Throws (m : Job σ ε α) (s : σ) (e : ε) (t : σ) : Prop :=
  m.run s [] = (.failed (.thrown e),t,[])

variable {e : ε}

theorem thrown_of_wp {m : Job σ ε α} {Q : α → σ → Prop} {E : Failure ε → σ → Prop}
    {K : σ → Prop} (h : wp m Q E K s) (ht : Throws m s e t) : E (.thrown e) t := by
  have hends := h []
  rw [show m.run s [] = _ from ht] at hends
  exact hends

theorem not_throws_of_returns {m : Job σ ε α} (h : Returns m s a t) : ¬Throws m s e u := by
  intro ht
  have hrun := h.symm.trans ht
  simp at hrun

theorem not_throws_pure {a' : α} : ¬Throws (Pure.pure a' : Job σ ε α) s e t := by
  intro h
  cases h

theorem throws_throw {e' : ε} : Throws (throw e' : Job σ ε α) s e t ↔ e = e' ∧ t = s := by
  constructor
  · intro h
    cases h
    exact ⟨rfl,rfl⟩
  · rintro ⟨rfl,rfl⟩
    rfl

theorem throws_bind {m : Job σ ε α} {f : α → Job σ ε β} : Throws (m >>= f) s e u ↔
    Throws m s e u ∨ ∃ a t, Returns m s a t ∧ Throws (f a) t e u := by
  have hclean := m.clean s
  change runBind m f s [] = _ ↔ m.run s [] = _ ∨ ∃ a t, m.run s [] = _ ∧ _
  unfold runBind
  rcases hr : m.run s [] with ⟨o,t,rest⟩
  rw [hr] at hclean
  obtain rfl : rest = [] := hclean.2
  cases o with
  | value a => simp [Throws,and_assoc]
  | failed e' => simp
  | halted => simp

theorem throws_catchThrown {m : Job σ ε α} {handler : ε → Job σ ε α} :
    Throws (catchThrown m handler) s e u ↔ ∃ e' t, Throws m s e' t ∧ Throws (handler e') t e u := by
  have hclean := m.clean s
  change runCatchThrown m handler s [] = _ ↔ ∃ e' t, m.run s [] = _ ∧ _
  unfold runCatchThrown
  rcases hr : m.run s [] with ⟨o,t,rest⟩
  rw [hr] at hclean
  obtain rfl : rest = [] := hclean.2
  cases o with
  | value a => simp
  | failed e' =>
    cases e' with
    | fault => exact absurd hclean.1 id
    | thrown e' => simp [Throws,and_assoc]
  | halted => simp

end Job
