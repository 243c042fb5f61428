import OnlyDoge.Library.Precondition
set_option autoImplicit false

/-! Jobs inside a database transaction: the stored state changes at the commit or not at all. -/

namespace Job
variable {σ ε α : Type}

def runTransaction (m : Job σ ε α) (s : σ) (fates : List Fate) :
    Outcome ε α × σ × List Fate :=
  match m.run s fates with
  | (.value a,s',[]) => (.value a,s',[])
  | (.value a,s',.done::rest) => (.value a,s',rest)
  | (.value _,s',.lost::rest) => (.failed .fault,s',rest)
  | (.value _,_,.refused::rest) => (.failed .fault,s,rest)
  | (.value _,_,.killed::rest) => (.halted,s,rest)
  | (.failed e,_,rest) => (.failed e,s,rest)
  | (.halted,_,rest) => (.halted,s,rest)

theorem runTransaction_clean (m : Job σ ε α) (s : σ) :
    (runTransaction m s []).1.Clean ∧ (runTransaction m s []).2.2 = [] := by
  obtain ⟨ho,hr⟩ := m.clean s
  unfold runTransaction
  rcases h : m.run s [] with ⟨o,s',rest⟩
  rw [h] at ho hr
  simp only at hr
  subst hr
  cases o with
  | value a => exact ⟨trivial,rfl⟩
  | failed e => exact ⟨ho,rfl⟩
  | halted => exact absurd ho id

/-- `BEGIN`, the statements of `m` and `COMMIT`; a failure or the end of the process before the
commit rolls everything back. -/
def inTransaction (m : Job σ ε α) : Job σ ε α where
  run := runTransaction m
  clean := runTransaction_clean m

variable {Q : α → σ → Prop} {E : Failure ε → σ → Prop} {K : σ → Prop} {s : σ}

theorem wp_inTransaction {m : Job σ ε α}
    (h : wp m (fun a t => Q a t ∧ E .fault t) (fun e _ => E e s) (fun _ => True) s)
    (hrefused : E .fault s) (hkilled : K s) : wp (inTransaction m) Q E K s := by
  intro fates
  have hends := h fates
  change Ends Q E K (runTransaction m s fates)
  unfold runTransaction
  rcases hr : m.run s fates with ⟨o,s',rest⟩
  rw [hr] at hends
  cases o with
  | failed e => exact hends
  | halted => exact hkilled
  | value a =>
    cases rest with
    | nil => exact hends.1
    | cons fate rest =>
      cases fate with
      | done => exact hends.1
      | lost => exact hends.2
      | refused => exact hrefused
      | killed => exact hkilled

end Job
