import OnlyDoge.Library.Interleaving
import OnlyDoge.Library.IsoTime
import OnlyDoge.Library.JsonRoundTrip
import OnlyDoge.Metadata.ConfigRows
set_option autoImplicit false

/-!
Detectors that write their status under one key (`mempool-appear-detector.ts`): each call of
`persistDetectorStatus` reads the row, looks at the clock, and swaps the row that it has read.
-/

namespace OnlyDoge.DetectorStatus
open JsonValue Interleaving

/-- A call with the fields of its detector. -/
structure StatusCall where
  ownerInstanceId : String
  rpcPollMs : Int
  degraded : Bool
  observedTxids : Nat
  deriving DecidableEq,Repr

/-- The row under the key, and the time in milliseconds. -/
structure Shared where
  row : ConfigRow.Row
  now : Int

/-- An awaited query returns, or it is rejected without an effect or after it. -/
inductive Answer where
  | returns
  | fails
  | lost
  deriving DecidableEq,Repr

/-- How far a call has come, with the attempts that are left. -/
inductive Progress where
  | reading (attempts : Nat)
  | checking (attempts : Nat) (current : JsonValue)
  | swapping (attempts : Nat) (current next : JsonValue)
  | returned
  | thrown

section Status
variable (dateParse : Option JsonValue → Option Int)

/-- `Date.parse` is given what the property holds, and answers `none` for `NaN`. -/
def currentExpiresAt (current : JsonValue) : Option Int :=
  if ConfigRow.truthy current then dateParse (current.get "expiresAt") else none

def isExpired (now : Int) (current : JsonValue) : Bool :=
  match currentExpiresAt dateParse current with
  | none => true
  | some expiresAt => decide (expiresAt ≤ now)

def isDegraded (current : JsonValue) : Bool :=
  match current.get "degraded" with
  | some (.bool degraded) => degraded
  | _ => false

def isOwner (ownerInstanceId : String) (current : JsonValue) : Bool :=
  match current.get "ownerInstanceId" with
  | some (.string owner) => owner = ownerInstanceId
  | _ => false

/-- Both branches that return ask for the same, whether the call reports a degradation or not. -/
def yields (call : StatusCall) (now : Int) (current : JsonValue) : Bool :=
  (!call.degraded && isDegraded current && !isExpired dateParse now current &&
      !isOwner call.ownerInstanceId current) ||
    (call.degraded && isDegraded current && !isExpired dateParse now current &&
      !isOwner call.ownerInstanceId current)

end Status

def statusJson (call : StatusCall) (observedAt expiresAt : String) : JsonValue :=
  .object [("version",.number (.ofInt 1)),
    ("ownerInstanceId",.string call.ownerInstanceId),
    ("degraded",.bool call.degraded),
    ("observedTxids",.number (.ofInt call.observedTxids)),
    ("observedAt",.string observedAt),
    ("expiresAt",.string expiresAt)]

/-- A time without a text throws. -/
def nextStatus (call : StatusCall) (now : Int) : Option JsonValue := do
  let observedAt ← IsoTime.toISOString now
  let expiresAt ← IsoTime.toISOString (now + call.rpcPollMs * 3)
  return statusJson call observedAt expiresAt

section Steps
variable {ι : Type} (dateParse : Option JsonValue → Option Int) (calls : ι → StatusCall)

/-- The fourth attempt is the last. -/
def afterSwap (swapped : Bool) (attempts : Nat) : Progress :=
  if swapped then .returned
  else if attempts ≤ 1 then .thrown
  else .reading (attempts - 1)

/-- Between the answer of a read and the swap nothing is awaited but the swap itself, so the clock
is looked at in a step of its own. -/
def advance (i : ι) (answer : Answer) (progress : Progress) (shared : Shared) :
    Option (Progress × Shared) :=
  match progress with
  | .reading attempts =>
    match answer with
    | .returns => some (.checking attempts (ConfigRow.getJsonValue shared.row),shared)
    | _ => some (.thrown,shared)
  | .checking attempts current =>
    if yields dateParse (calls i) shared.now current then some (.returned,shared)
    else
      match nextStatus (calls i) shared.now with
      | none => some (.thrown,shared)
      | some next => some (.swapping attempts current next,shared)
  | .swapping attempts current next =>
    let (swapped,row) := ConfigRow.compareAndSwapJsonValue current next shared.row
    match answer with
    | .fails => some (.thrown,shared)
    | .lost => some (.thrown,{ shared with row := row })
    | .returns => some (afterSwap swapped attempts,{ shared with row := row })
  | .returned | .thrown => none

/-- Time passes. -/
def pass (ms : Nat) (shared : Shared) : Option Shared :=
  some { shared with now := shared.now + ms }

variable [DecidableEq ι]

def statusStep : Event ι Answer Nat → State ι Shared Progress → Option (State ι Shared Progress) :=
  Interleaving.step (advance dateParse calls) pass

end Steps

def started {ι : Type} (row : ConfigRow.Row) (now : Int) : State ι Shared Progress :=
  ⟨⟨row,now⟩,fun _ => .reading 4⟩

variable {dateParse : Option JsonValue → Option Int} {call : StatusCall} {current next : JsonValue}
  {now : Int}

theorem yields_eq : yields dateParse call now current =
    (isDegraded current && !isExpired dateParse now current &&
      !isOwner call.ownerInstanceId current) := by
  unfold yields
  cases call.degraded <;> simp

theorem isExpired_mono {later : Int} (hlater : now ≤ later)
    (h : isExpired dateParse later current = false) :
    isExpired dateParse now current = false := by
  unfold isExpired at *
  cases hexpires : currentExpiresAt dateParse current with
  | none => simp [hexpires] at h
  | some expiresAt =>
    simp only [hexpires,decide_eq_false_iff_not] at h ⊢
    omega

theorem nextStatus_eq_some (h : nextStatus call now = some next) :
    ∃ observedAt expiresAt, next = statusJson call observedAt expiresAt := by
  simp only [nextStatus,Option.bind_eq_bind,Option.bind_eq_some_iff] at h
  obtain ⟨observedAt,-,expiresAt,-,h⟩ := h
  cases h
  exact ⟨observedAt,expiresAt,rfl⟩

theorem statusJson_canonical (call : StatusCall) (observedAt expiresAt : String) :
    Canonical (statusJson call observedAt expiresAt) := by
  refine .object ?_ ?_
  · have hkeys : ∀ key ∈ ["version","ownerInstanceId","degraded","observedTxids","observedAt",
        "expiresAt"], arrayIndex key = none := by
      decide
    rw [ofMembers,OrderedMap.entries_ofEntries (by simp)]
    simp only [List.mem_cons,List.not_mem_nil,or_false,forall_eq_or_imp,forall_eq] at hkeys
    simp [arrange,isIndexMember,hkeys]
  · simp [Canonical.number,Canonical.string,Canonical.bool]

theorem getJsonValue_text {value : JsonValue} (h : Canonical value) :
    ConfigRow.getJsonValue (some (stringify value)) = value := by
  simp [ConfigRow.getJsonValue,parse_stringify h]

theorem getJsonValue_nextStatus (h : nextStatus call now = some next) :
    ConfigRow.getJsonValue (some (stringify next)) = next := by
  obtain ⟨observedAt,expiresAt,rfl⟩ := nextStatus_eq_some h
  exact getJsonValue_text (statusJson_canonical _ _ _)

theorem isOwner_nextStatus (h : nextStatus call now = some next) :
    isOwner call.ownerInstanceId next = true := by
  obtain ⟨observedAt,expiresAt,rfl⟩ := nextStatus_eq_some h
  simp [isOwner,statusJson,JsonValue.get,OrderedMap.lookup]

theorem compareAndSwap_row (hcurrent : Canonical current) (row : ConfigRow.Row) :
    ((ConfigRow.compareAndSwapJsonValue current next row).1 = false ∧
      (ConfigRow.compareAndSwapJsonValue current next row).2 = row) ∨
    ((ConfigRow.compareAndSwapJsonValue current next row).1 = true ∧
      (ConfigRow.compareAndSwapJsonValue current next row).2 = some (stringify next) ∧
      ConfigRow.getJsonValue row = current) := by
  unfold ConfigRow.compareAndSwapJsonValue
  split
  · by_cases h : row = none
    · subst h
      exact Or.inr ⟨rfl,rfl,rfl⟩
    · rw [if_neg h]
      exact Or.inl ⟨rfl,rfl⟩
  · by_cases h : row = some (stringify current)
    · subst h
      rw [if_pos rfl]
      exact Or.inr ⟨rfl,rfl,getJsonValue_text hcurrent⟩
    · rw [if_neg h]
      exact Or.inl ⟨rfl,rfl⟩

section Runs
variable {ι : Type} {calls : ι → StatusCall}

variable (dateParse) in
/-- A call that is about to swap has seen no reason to yield, at a time that has been. -/
def Held (call : StatusCall) : Progress → Shared → Prop
  | .checking _ current,_ => Canonical current
  | .swapping _ current next,shared => Canonical current ∧
      ∃ checked ≤ shared.now, yields dateParse call checked current = false ∧
        nextStatus call checked = some next
  | _,_ => True

theorem Held.later {progress : Progress} {shared after : Shared}
    (h : Held dateParse call progress shared) (hnow : shared.now ≤ after.now) :
    Held dateParse call progress after := by
  cases progress with
  | swapping attempts current next =>
    obtain ⟨hcurrent,checked,hchecked,hrest⟩ := h
    exact ⟨hcurrent,checked,by omega,hrest⟩
  | _ => exact h

theorem held_afterSwap (swapped : Bool) (attempts : Nat) (shared : Shared) :
    Held dateParse call (afterSwap swapped attempts) shared := by
  unfold afterSwap
  split
  · trivial
  · split <;> trivial

variable {i : ι} {answer : Answer} {p q : Progress} {s t : Shared}

theorem advance_held (h : Held dateParse (calls i) p s)
    (hadvance : advance dateParse calls i answer p s = some (q,t)) :
    Held dateParse (calls i) q t ∧ t.now = s.now := by
  cases p with
  | reading attempts =>
    cases answer <;> cases hadvance
    · exact ⟨ConfigRow.getJsonValue_canonical _,rfl⟩
    · exact ⟨trivial,rfl⟩
    · exact ⟨trivial,rfl⟩
  | checking attempts current =>
    cases hyields : yields dateParse (calls i) s.now current with
    | true =>
      simp only [advance,hyields,if_true] at hadvance
      cases hadvance
      exact ⟨trivial,rfl⟩
    | false =>
      simp only [advance,hyields,Bool.false_eq_true,if_false] at hadvance
      cases hnext : nextStatus (calls i) s.now with
      | none =>
        rw [hnext] at hadvance
        cases hadvance
        exact ⟨trivial,rfl⟩
      | some next =>
        rw [hnext] at hadvance
        cases hadvance
        exact ⟨⟨h,_,le_refl _,hyields,hnext⟩,rfl⟩
  | swapping attempts current next =>
    cases answer <;> cases hadvance
    · exact ⟨held_afterSwap _ _ _,rfl⟩
    · exact ⟨trivial,rfl⟩
    · exact ⟨trivial,rfl⟩
  | returned => cases hadvance
  | thrown => cases hadvance

theorem advance_row (h : Held dateParse (calls i) p s)
    (hadvance : advance dateParse calls i answer p s = some (q,t)) :
    t.row = s.row ∨ ∃ attempts current next, p = .swapping attempts current next ∧
      ConfigRow.getJsonValue s.row = current ∧ t.row = some (stringify next) := by
  cases p with
  | reading attempts => cases answer <;> cases hadvance <;> exact Or.inl rfl
  | checking attempts current =>
    unfold advance at hadvance
    dsimp only at hadvance
    split at hadvance
    · cases hadvance
      exact Or.inl rfl
    · split at hadvance <;> cases hadvance <;> exact Or.inl rfl
  | swapping attempts current next =>
    have hswap := @compareAndSwap_row current next h.1 s.row
    cases answer <;> cases hadvance
    · rcases hswap with ⟨-,hrow⟩ | ⟨-,hrow,hread⟩
      · exact Or.inl hrow
      · exact Or.inr ⟨attempts,current,next,rfl,hread,hrow⟩
    · exact Or.inl rfl
    · rcases hswap with ⟨-,hrow⟩ | ⟨-,hrow,hread⟩
      · exact Or.inl hrow
      · exact Or.inr ⟨attempts,current,next,rfl,hread,hrow⟩
  | returned => cases hadvance
  | thrown => cases hadvance

theorem safe_status : Safe (advance dateParse calls) pass (fun _ => True)
    (fun i => Held dateParse (calls i)) (fun _ _ => True) where
  own i answer s p t _ hheld _ hadvance := ⟨trivial,(advance_held (hheld i) hadvance).1⟩
  other i answer s p t _ hheld _ hadvance j _ :=
    (hheld j).later (le_of_eq (advance_held (hheld i) hadvance).2.symm)
  outside ms s t _ hheld _ hpass := by
    cases hpass
    refine ⟨trivial,fun j => (hheld j).later ?_⟩
    simp only
    omega

/-- The row holds a degradation that has not expired. -/
def LiveDegraded (dateParse : Option JsonValue → Option Int) (shared : Shared) : Prop :=
  isDegraded (ConfigRow.getJsonValue shared.row) = true ∧
    isExpired dateParse shared.now (ConfigRow.getJsonValue shared.row) = false

def SameOwner (s t : Shared) : Prop :=
  ∃ owner, isOwner owner (ConfigRow.getJsonValue s.row) = true ∧
    isOwner owner (ConfigRow.getJsonValue t.row) = true

theorem advance_live (hlive : LiveDegraded dateParse s) (h : Held dateParse (calls i) p s)
    (hadvance : advance dateParse calls i answer p s = some (q,t)) :
    t.row = s.row ∨ SameOwner s t := by
  rcases advance_row h hadvance with hrow | ⟨attempts,current,next,rfl,hread,hrow⟩
  · exact Or.inl hrow
  · obtain ⟨-,checked,hchecked,hyields,hnext⟩ := h
    obtain ⟨hdegraded,hexpired⟩ := hlive
    rw [hread] at hdegraded hexpired
    rw [yields_eq,hdegraded,isExpired_mono hchecked hexpired] at hyields
    refine Or.inr ⟨(calls i).ownerInstanceId,?_,?_⟩
    · rw [hread]
      simpa using hyields
    · rw [hrow,getJsonValue_nextStatus hnext]
      exact isOwner_nextStatus hnext

/-- A step of a call in which it reads the row. -/
def Reads (i : ι) (current : JsonValue) (event : Event ι Answer Nat)
    (u _ : State ι Shared Progress) : Prop :=
  (∃ answer, event = .call i answer) ∧ (∃ attempts, u.progress i = .reading attempts) ∧
    ConfigRow.getJsonValue u.store.row = current

variable (calls) in
/-- A step of a call in which its status takes the place of the row. -/
def Writes (i : ι) (event : Event ι Answer Nat) (u v : State ι Shared Progress) : Prop :=
  (∃ answer, event = .call i answer) ∧ ∃ attempts current next checked,
    u.progress i = .swapping attempts current next ∧ nextStatus (calls i) checked = some next ∧
    (ConfigRow.compareAndSwapJsonValue current next u.store.row).1 = true ∧
    v.store.row = some (stringify next)

variable (dateParse calls) in
/-- A step of a call in which it finds that it has read a live degradation of another owner. -/
def Sees (i : ι) (current : JsonValue) (event : Event ι Answer Nat)
    (u _ : State ι Shared Progress) : Prop :=
  (∃ answer, event = .call i answer) ∧ (∃ attempts, u.progress i = .checking attempts current) ∧
    isDegraded current = true ∧ isExpired dateParse u.store.now current = false ∧
    isOwner (calls i).ownerInstanceId current = false

variable [DecidableEq ι] {row : ConfigRow.Row} {start : Int} {events : List (Event ι Answer Nat)}
  {u v : State ι Shared Progress} {event : Event ι Answer Nat}

variable (dateParse calls) in
def Happened (row : ConfigRow.Row) (start : Int) (events : List (Event ι Answer Nat))
    (C : Event ι Answer Nat → State ι Shared Progress → State ι Shared Progress → Prop) : Prop :=
  Machine.Occurs (statusStep dateParse calls) C (started row start) events

variable (dateParse calls) in
/-- What the steps so far have been for a call that has come this far. -/
def Explained (row : ConfigRow.Row) (start : Int) (events : List (Event ι Answer Nat)) (i : ι) :
    Progress → Prop
  | .checking _ current => Happened dateParse calls row start events (Reads i current)
  | .returned => Happened dateParse calls row start events (Writes calls i) ∨
      ∃ current, Happened dateParse calls row start events (Reads i current) ∧
        Happened dateParse calls row start events (Sees dateParse calls i current)
  | _ => True

theorem Explained.snoc {progress : Progress}
    (h : Explained dateParse calls row start events i progress) (event : Event ι Answer Nat) :
    Explained dateParse calls row start (events ++ [event]) i progress := by
  cases progress with
  | checking attempts current => exact Machine.Occurs.snoc h event
  | returned =>
    rcases h with h | ⟨current,hreads,hsees⟩
    · exact Or.inl (Machine.Occurs.snoc h event)
    · exact Or.inr ⟨current,Machine.Occurs.snoc hreads event,Machine.Occurs.snoc hsees event⟩
  | _ => trivial

theorem explained_own
    (hrun : Machine.run (statusStep dateParse calls) events (started row start) = some u)
    (hheld : Held dateParse (calls i) (u.progress i) u.store)
    (h : Explained dateParse calls row start events i (u.progress i))
    (hstep : statusStep dateParse calls (.call i answer) u = some v)
    (hadvance : advance dateParse calls i answer (u.progress i) u.store = some (q,v.store)) :
    Explained dateParse calls row start (events ++ [.call i answer]) i q := by
  cases hp : u.progress i with
  | reading attempts =>
    rw [hp] at hadvance
    cases answer <;> simp only [advance,Option.some.injEq,Prod.mk.injEq] at hadvance <;>
      obtain ⟨rfl,-⟩ := hadvance
    · exact Machine.Occurs.last hrun hstep ⟨⟨_,rfl⟩,⟨attempts,hp⟩,rfl⟩
    · trivial
    · trivial
  | checking attempts current =>
    rw [hp] at hadvance h
    cases hyields : yields dateParse (calls i) u.store.now current with
    | true =>
      simp only [advance,hyields,if_true,Option.some.injEq,Prod.mk.injEq] at hadvance
      obtain ⟨rfl,-⟩ := hadvance
      rw [yields_eq] at hyields
      simp only [Bool.and_eq_true,Bool.not_eq_true'] at hyields
      exact Or.inr ⟨current,Machine.Occurs.snoc h _,
        Machine.Occurs.last hrun hstep ⟨⟨_,rfl⟩,⟨attempts,hp⟩,hyields.1.1,hyields.1.2,hyields.2⟩⟩
    | false =>
      simp only [advance,hyields,Bool.false_eq_true,if_false] at hadvance
      cases hnext : nextStatus (calls i) u.store.now with
      | none =>
        simp only [hnext,Option.some.injEq,Prod.mk.injEq] at hadvance
        obtain ⟨rfl,-⟩ := hadvance
        trivial
      | some next =>
        simp only [hnext,Option.some.injEq,Prod.mk.injEq] at hadvance
        obtain ⟨rfl,-⟩ := hadvance
        trivial
  | swapping attempts current next =>
    rw [hp] at hadvance hheld
    obtain ⟨hcurrent,checked,-,-,hnext⟩ := hheld
    cases answer with
    | fails =>
      simp only [advance,Option.some.injEq,Prod.mk.injEq] at hadvance
      obtain ⟨rfl,-⟩ := hadvance
      trivial
    | lost =>
      simp only [advance,Option.some.injEq,Prod.mk.injEq] at hadvance
      obtain ⟨rfl,-⟩ := hadvance
      trivial
    | returns =>
      simp only [advance,Option.some.injEq,Prod.mk.injEq] at hadvance
      obtain ⟨rfl,hstore⟩ := hadvance
      rcases @compareAndSwap_row current next hcurrent u.store.row with
        ⟨hswapped,-⟩ | ⟨hswapped,hrow,-⟩
      · rw [hswapped]
        unfold afterSwap
        by_cases hattempts : attempts ≤ 1
        · simp [hattempts,Explained]
        · simp [hattempts,Explained]
      · rw [hswapped]
        exact Or.inl (Machine.Occurs.last hrun hstep
          ⟨⟨_,rfl⟩,attempts,current,next,checked,hp,hnext,hswapped,by rw [← hstore]; exact hrow⟩)
  | returned =>
    rw [hp] at hadvance
    cases hadvance
  | thrown =>
    rw [hp] at hadvance
    cases hadvance

theorem held_run
    (hrun : Machine.run (statusStep dateParse calls) events (started row start) = some u) :
    ∀ i, Held dateParse (calls i) (u.progress i) u.store :=
  have hstart : ∀ i, Held dateParse (calls i)
      ((started row start : State ι Shared Progress).progress i)
      (started row start : State ι Shared Progress).store := fun _ => trivial
  (safe_status.run ⟨trivial,hstart⟩ (fun _ _ _ _ _ _ => trivial) hrun).2

theorem explained_run
    (hrun : Machine.run (statusStep dateParse calls) events (started row start) = some u) :
    ∀ i, Explained dateParse calls row start events i (u.progress i) := by
  refine @Machine.run_history _ _ (statusStep dateParse calls) (started row start) u events
    (fun events u => ∀ i, Explained dateParse calls row start events i (u.progress i))
    (fun _ => trivial) ?_ hrun
  intro passed event t v ht hexplained hstep i
  cases event with
  | call j answer =>
    obtain ⟨q,st,hadvance,rfl⟩ := step_call.mp hstep
    by_cases hij : i = j
    · subst hij
      simp only [Function.update_self]
      exact explained_own ht (held_run ht i) (hexplained i) hstep hadvance
    · simp only [Function.update_of_ne hij]
      exact (hexplained i).snoc _
  | outside ms =>
    obtain ⟨st,-,rfl⟩ := step_outside.mp hstep
    exact (hexplained i).snoc _

/-- A live degradation is replaced by a status of its own owner only, and a call that returns has
written its status or has seen a live degradation of another owner. -/
theorem live_degradation_stays
    (hrun : Machine.run (statusStep dateParse calls) events (started row start) = some u) :
    (∀ event v, statusStep dateParse calls event u = some v → LiveDegraded dateParse u.store →
      v.store.row = u.store.row ∨ SameOwner u.store v.store) ∧
    ∀ i, u.progress i = .returned →
      Happened dateParse calls row start events (Writes calls i) ∨
      ∃ current, Happened dateParse calls row start events (Reads i current) ∧
        Happened dateParse calls row start events (Sees dateParse calls i current) := by
  refine ⟨fun event v hstep hlive => ?_,fun i hi => ?_⟩
  · cases event with
    | call i answer =>
      obtain ⟨q,st,hadvance,rfl⟩ := step_call.mp hstep
      exact advance_live hlive (held_run hrun i) hadvance
    | outside ms =>
      obtain ⟨st,hpass,rfl⟩ := step_outside.mp hstep
      cases hpass
      exact Or.inl rfl
  · have hexplained := explained_run hrun i
    rw [hi] at hexplained
    exact hexplained

end Runs

/-- Two detectors that poll every second; the first one is degraded. -/
def sampleCalls (i : Fin 2) : StatusCall :=
  if i = 0 then ⟨"owner-a",1000,true,2⟩ else ⟨"owner-b",1000,false,2⟩

def sampleEvents : List (Event (Fin 2) Answer Nat) :=
  [.call 0 .returns,.call 0 .returns,.call 1 .returns,.call 0 .returns,.outside 5,
    .call 1 .returns,.call 1 .returns]

theorem live_degradation_stays_two_calls :
    ∃ u, Machine.run (statusStep (fun _ => some 3000) sampleCalls) sampleEvents
        (started none 0) = some u ∧
      ∀ event v, statusStep (fun _ => some 3000) sampleCalls event u = some v →
        LiveDegraded (fun _ => some 3000) u.store →
        v.store.row = u.store.row ∨ SameOwner u.store v.store := by
  have hsome : (Machine.run (statusStep (fun _ => some 3000) sampleCalls) sampleEvents
    (started none 0)).isSome = true := rfl
  obtain ⟨u,hu⟩ := Option.isSome_iff_exists.mp hsome
  exact ⟨u,hu,(live_degradation_stays hu).1⟩

end OnlyDoge.DetectorStatus
