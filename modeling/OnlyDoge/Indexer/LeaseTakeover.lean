import OnlyDoge.Indexer.LeaseExclusion
set_option autoImplicit false

/-!
Which compare-and-swap calls of the instances succeed: a stored lease only gives way to a younger
one, so a swap that expects an outdated lease never succeeds again.
-/

namespace OnlyDoge

/-- The leases an instance may have stored, the values it may have read, the swaps it may have
sent. -/
structure LeaseFlow (ι : Type) where
  own : PrimaryLease ι → Prop
  read : PrimaryValue ι → Prop
  sent : SwapKind → LeaseSwap ι → Prop

section Flow
variable {ι : Type} {flow flow' : LeaseFlow ι}

structure LeaseFlow.Call (flow : LeaseFlow ι) (kind : SwapKind) (call : SwapCall ι) : Prop where
  sent : call.answer = none → flow.sent kind call.swap
  own : call.answer = some true → flow.own call.swap.nextValue

def LeaseFlow.Beats (flow : LeaseFlow ι) (heartbeat : Heartbeat ι) : Prop :=
  ∀ call, heartbeat.renewal = some call → flow.Call .renewPrimaryLease call

def LeaseFlow.Phase (flow : LeaseFlow ι) : LeasePhase ι → Prop
  | .idle => True
  | .reading answer => ∀ value, answer = some value → flow.read value
  | .swapping kind call => flow.Call kind call
  | .working heartbeat => flow.Beats heartbeat
  | .finishing heartbeat => flow.Beats heartbeat

structure LeaseFlow.Holds (flow : LeaseFlow ι) (inst : LeaseInstance ι) : Prop where
  cached : ∀ lease, inst.primaryLease = some lease → flow.own lease
  phase : flow.Phase inst.phase

/-- One flow allows what the other does. -/
structure LeaseFlow.Within (flow flow' : LeaseFlow ι) : Prop where
  own : ∀ lease, flow.own lease → flow'.own lease
  read : ∀ value, flow.read value → flow'.read value
  sent : ∀ kind swap, flow.sent kind swap → flow'.sent kind swap

theorem LeaseFlow.Call.mono {kind : SwapKind} {call : SwapCall ι} (h : flow.Call kind call)
    (hwithin : flow.Within flow') : flow'.Call kind call :=
  ⟨fun hanswer => hwithin.sent _ _ (h.sent hanswer),
    fun hanswer => hwithin.own _ (h.own hanswer)⟩

theorem LeaseFlow.Phase.mono {phase : LeasePhase ι} (h : flow.Phase phase)
    (hwithin : flow.Within flow') : flow'.Phase phase := by
  cases phase with
  | idle => trivial
  | reading answer => exact fun value hvalue => hwithin.read value (h value hvalue)
  | swapping kind call => exact LeaseFlow.Call.mono h hwithin
  | working heartbeat => exact fun call hcall => (h call hcall).mono hwithin
  | finishing heartbeat => exact fun call hcall => (h call hcall).mono hwithin

theorem LeaseFlow.Holds.mono {inst : LeaseInstance ι} (h : flow.Holds inst)
    (hwithin : flow.Within flow') : flow'.Holds inst :=
  ⟨fun lease hlease => hwithin.own lease (h.cached lease hlease),h.phase.mono hwithin⟩

/-- What `leaseLeadership` makes of the value that was read. -/
def SwapKind.Chosen (heartbeatIntervalMs : Nat) (instanceId : ι) (now : Nat)
    (current : PrimaryValue ι) : SwapKind → Prop
  | .renewPrimaryLease => ∃ lease, current = .lease lease ∧ lease.instanceId = instanceId
  | .claimPrimaryLease => ∀ lease, current = .lease lease →
      lease.instanceId ≠ instanceId ∧ lease.heartbeatAt + heartbeatIntervalMs * 3 < now

theorem call_new {kind : SwapKind} {swap : LeaseSwap ι} (h : flow.sent kind swap) :
    flow.Call kind ⟨swap,none⟩ :=
  ⟨fun _ => h,fun hanswer => (by cases hanswer)⟩

theorem LeaseFlow.Call.swappedLease {kind : SwapKind} {swap : LeaseSwap ι} {swapped : Bool}
    (h : flow.Call kind ⟨swap,some swapped⟩) (lease : PrimaryLease ι)
    (hlease : swappedLease swap swapped = some lease) : flow.own lease := by
  cases swapped with
  | false => cases hlease
  | true =>
    cases hlease
    exact h.own rfl

theorem LeaseFlow.Call.of_abandoned {kind : SwapKind} {call : SwapCall ι} {swap : LeaseSwap ι}
    (h : flow.Call kind call) (hswap : call.abandoned = some swap) : flow.sent kind swap := by
  obtain ⟨sent,answer⟩ := call
  cases answer with
  | none =>
    cases hswap
    exact h.sent rfl
  | some swapped => cases hswap

/-- The swap an instance waits for and the store has not carried out. -/
def LeaseInstance.waiting (inst : LeaseInstance ι) : Option (LeaseSwap ι) :=
  match inst.phase with
  | .swapping _ ⟨swap,none⟩ => some swap
  | .working ⟨_,some ⟨swap,none⟩⟩ => some swap
  | .finishing ⟨_,some ⟨swap,none⟩⟩ => some swap
  | _ => none

theorem LeaseFlow.Holds.waiting {inst : LeaseInstance ι} {swap : LeaseSwap ι}
    (h : flow.Holds inst) (hwaiting : inst.waiting = some swap) : ∃ kind, flow.sent kind swap := by
  have hphase := h.phase
  unfold LeaseInstance.waiting at hwaiting
  split at hwaiting
  case h_1 kind _ heq =>
    cases hwaiting
    rw [heq] at hphase
    exact ⟨kind,hphase.sent rfl⟩
  case h_2 heq =>
    cases hwaiting
    rw [heq] at hphase
    exact ⟨_,(hphase _ rfl).sent rfl⟩
  case h_3 heq =>
    cases hwaiting
    rw [heq] at hphase
    exact ⟨_,(hphase _ rfl).sent rfl⟩
  case h_4 => cases hwaiting

def LeaseMove.swaps : LeaseMove → Bool
  | .swapLeadership => true
  | .swapHeartbeat => true
  | _ => false

variable [DecidableEq ι] {heartbeatIntervalMs : Nat} {instanceId : ι} {inst : LeaseInstance ι}
  {store : LeaseStore ι}

theorem receivePrimary_holds {current : PrimaryValue ι} (h : flow.Holds inst)
    (hsent : ∀ kind : SwapKind, kind.Chosen heartbeatIntervalMs instanceId store.now current →
      flow.sent kind ⟨current,createLease instanceId store.now⟩) :
    flow.Holds (receivePrimary heartbeatIntervalMs instanceId store.now current inst) := by
  unfold receivePrimary
  cases current with
  | null => exact ⟨h.cached,call_new (hsent .claimPrimaryLease (fun _ hlease => (by cases hlease)))⟩
  | text value =>
    exact ⟨h.cached,call_new (hsent .claimPrimaryLease (fun _ hlease => (by cases hlease)))⟩
  | lease currentLease =>
    simp only [toPrimaryLease]
    by_cases hown : currentLease.instanceId = instanceId
    · rw [if_pos hown]
      exact ⟨h.cached,call_new (hsent .renewPrimaryLease ⟨currentLease,rfl,hown⟩)⟩
    · rw [if_neg hown]
      by_cases hfresh : isFreshPrimaryLease heartbeatIntervalMs currentLease store.now = true
      · rw [if_pos hfresh]
        exact ⟨fun lease hlease => (by cases hlease),trivial⟩
      · rw [if_neg hfresh]
        refine ⟨h.cached,call_new (hsent .claimPrimaryLease (fun lease hlease => ?_))⟩
        cases hlease
        exact ⟨hown,by simpa [isFreshPrimaryLease] using hfresh⟩

theorem carriedOut_holds {kind : SwapKind} {swap : LeaseSwap ι}
    (h : flow.Call kind ⟨swap,none⟩)
    (hswap : store.expects swap.expectedValue = true → flow.own swap.nextValue) :
    flow.Call kind (SwapCall.carriedOut ⟨swap,none⟩ store).1 := by
  unfold SwapCall.carriedOut LeaseStore.compareAndSwapJsonValue
  by_cases hexp : store.expects swap.expectedValue = true
  · rw [if_pos hexp]
    exact ⟨fun _ => h.sent rfl,fun _ => hswap hexp⟩
  · rw [if_neg hexp]
    exact ⟨fun _ => h.sent rfl,fun hanswer => (by cases hanswer)⟩

/-- What a move does to the store, and to an instance in which a flow holds. -/
structure FlowEffect (flow : LeaseFlow ι) (move : LeaseMove) (store : LeaseStore ι)
    (inst : LeaseInstance ι) (effect : LeaseEffect ι) : Prop where
  store : (move.swaps = false ∧ effect.store = store) ∨
    ∃ swap, move.swaps = true ∧ inst.waiting = some swap ∧
      effect.store = (store.compareAndSwapJsonValue swap).2
  next : flow.Holds effect.next
  abandoned : ∀ swap, effect.abandoned = some swap → ∃ kind, flow.sent kind swap

theorem flowEffect_local {move : LeaseMove} {next : LeaseInstance ι} (hmove : move.swaps = false)
    (hnext : flow.Holds next) : FlowEffect flow move store inst ⟨store,next,none⟩ :=
  ⟨Or.inl ⟨hmove,rfl⟩,hnext,fun _ h => (by cases h)⟩

theorem performMove_flow {move : LeaseMove} {effect : LeaseEffect ι} (h : flow.Holds inst)
    (hread : flow.read store.getJsonValue)
    (hsent : ∀ (kind : SwapKind) value, move = .receivePrimary →
      inst.phase = .reading (some value) →
      kind.Chosen heartbeatIntervalMs instanceId store.now value →
      flow.sent kind ⟨value,createLease instanceId store.now⟩)
    (hrenew : ∀ lease, inst.primaryLease = some lease →
      flow.sent .renewPrimaryLease ⟨.lease lease,createLease instanceId store.now⟩)
    (hswap : ∀ kind swap, move.swaps = true → inst.waiting = some swap → flow.sent kind swap →
      store.expects swap.expectedValue = true → flow.own swap.nextValue)
    (hmove : performMove heartbeatIntervalMs instanceId move store inst = some effect) :
    FlowEffect flow move store inst effect := by
  obtain ⟨primaryLease,phase⟩ := inst
  have hphase : flow.Phase phase := h.phase
  unfold performMove at hmove
  split at hmove
  case h_1 =>
    cases hmove
    refine flowEffect_local rfl ?_
    unfold leaseLeadership
    split
    · exact ⟨h.cached,fun call hcall => (by cases hcall)⟩
    · exact ⟨h.cached,fun value hvalue => (by cases hvalue)⟩
  case h_2 =>
    cases hmove
    refine flowEffect_local rfl ⟨h.cached,fun value hvalue => ?_⟩
    cases hvalue
    exact hread
  case h_3 _ _ current hreading =>
    cases hmove
    obtain rfl : phase = .reading (some current) := hreading
    exact flowEffect_local rfl (receivePrimary_holds h
      (fun kind hchosen => hsent kind current rfl rfl hchosen))
  case h_4 =>
    cases hmove
    exact flowEffect_local rfl ⟨h.cached,trivial⟩
  case h_5 _ _ kind swap hswapping =>
    cases hmove
    obtain rfl : phase = .swapping kind ⟨swap,none⟩ := hswapping
    have hcall : flow.Call kind ⟨swap,none⟩ := hphase
    exact ⟨Or.inr ⟨swap,rfl,rfl,rfl⟩,⟨h.cached,carriedOut_holds hcall
      (hswap kind swap rfl rfl (hcall.sent rfl))⟩,fun _ h => (by cases h)⟩
  case h_6 _ _ kind swap swapped hswapping =>
    cases hmove
    obtain rfl : phase = .swapping kind ⟨swap,some swapped⟩ := hswapping
    have hcall : flow.Call kind ⟨swap,some swapped⟩ := hphase
    refine flowEffect_local rfl ?_
    cases swapped with
    | false => exact ⟨fun lease hlease => (by cases hlease),trivial⟩
    | true => exact ⟨hcall.swappedLease,fun call hcall => (by cases hcall)⟩
  case h_7 _ _ kind call hswapping =>
    cases hmove
    obtain rfl : phase = .swapping kind call := hswapping
    have hcall : flow.Call kind call := hphase
    refine ⟨Or.inl ⟨rfl,rfl⟩,?_,fun swap hswap => ⟨kind,hcall.of_abandoned hswap⟩⟩
    cases kind with
    | renewPrimaryLease => exact ⟨fun lease hlease => (by cases hlease),trivial⟩
    | claimPrimaryLease => exact ⟨h.cached,trivial⟩
  case h_8 _ _ setAt renewal hworking =>
    obtain rfl : phase = .working ⟨some setAt,renewal⟩ := hworking
    split at hmove
    · cases hmove
      refine flowEffect_local rfl ?_
      cases primaryLease with
      | none => exact ⟨h.cached,fun call hcall => hphase call hcall⟩
      | some expectedLease =>
        refine ⟨h.cached,fun call hcall => ?_⟩
        cases hcall
        exact call_new (hrenew expectedLease rfl)
    · cases hmove
  case h_9 _ _ timer swap hworking =>
    cases hmove
    obtain rfl : phase = .working ⟨timer,some ⟨swap,none⟩⟩ := hworking
    have hcall := hphase ⟨swap,none⟩ rfl
    refine ⟨Or.inr ⟨swap,rfl,rfl,rfl⟩,⟨h.cached,fun call heq => ?_⟩,fun _ h => (by cases h)⟩
    cases heq
    exact carriedOut_holds hcall (hswap _ swap rfl rfl (hcall.sent rfl))
  case h_10 _ _ timer swap hfinishing =>
    cases hmove
    obtain rfl : phase = .finishing ⟨timer,some ⟨swap,none⟩⟩ := hfinishing
    have hcall := hphase ⟨swap,none⟩ rfl
    refine ⟨Or.inr ⟨swap,rfl,rfl,rfl⟩,⟨h.cached,fun call heq => ?_⟩,fun _ h => (by cases h)⟩
    cases heq
    exact carriedOut_holds hcall (hswap _ swap rfl rfl (hcall.sent rfl))
  case h_11 _ _ timer swap swapped hworking =>
    cases hmove
    obtain rfl : phase = .working ⟨timer,some ⟨swap,some swapped⟩⟩ := hworking
    exact flowEffect_local rfl ⟨(hphase _ rfl).swappedLease,fun call hcall => (by cases hcall)⟩
  case h_12 _ _ timer swap swapped hfinishing =>
    cases hmove
    obtain rfl : phase = .finishing ⟨timer,some ⟨swap,some swapped⟩⟩ := hfinishing
    exact flowEffect_local rfl ⟨(hphase _ rfl).swappedLease,fun call hcall => (by cases hcall)⟩
  case h_13 _ _ timer call hworking =>
    cases hmove
    obtain rfl : phase = .working ⟨timer,some call⟩ := hworking
    exact ⟨Or.inl ⟨rfl,rfl⟩,
      ⟨fun lease hlease => (by cases hlease),fun call hcall => (by cases hcall)⟩,
      fun swap hswap => ⟨_,(hphase _ rfl).of_abandoned hswap⟩⟩
  case h_14 _ _ timer call hfinishing =>
    cases hmove
    obtain rfl : phase = .finishing ⟨timer,some call⟩ := hfinishing
    exact ⟨Or.inl ⟨rfl,rfl⟩,
      ⟨fun lease hlease => (by cases hlease),fun call hcall => (by cases hcall)⟩,
      fun swap hswap => ⟨_,(hphase _ rfl).of_abandoned hswap⟩⟩
  case h_15 =>
    cases hmove
    refine flowEffect_local rfl ?_
    unfold assertPrimaryLease
    split
    · rename_i heartbeat hcached hworking
      obtain rfl : phase = .working heartbeat := hworking
      exact ⟨h.cached,fun call hcall => hphase call hcall⟩
    · exact h
  case h_16 _ _ heartbeat hworking =>
    cases hmove
    obtain rfl : phase = .working heartbeat := hworking
    exact flowEffect_local rfl ⟨h.cached,fun call hcall => hphase call hcall⟩
  case h_17 =>
    cases hmove
    exact flowEffect_local rfl ⟨h.cached,trivial⟩
  case h_18 => cases hmove

end Flow

section States
variable {ι : Type} {flow flow' : LeaseFlow ι} {s : LeaseState ι} {i : ι}

/-- A flow holds of an instance and of the swaps it no longer waits for. -/
structure FlowState (flow : LeaseFlow ι) (instanceId : ι) (s : LeaseState ι) : Prop where
  inst : flow.Holds (s.instances instanceId)
  stragglers : ∀ swap, (instanceId,swap) ∈ s.stragglers → ∃ kind, flow.sent kind swap

theorem FlowState.mono (h : FlowState flow i s) (hwithin : flow.Within flow') :
    FlowState flow' i s := by
  refine ⟨h.inst.mono hwithin,fun swap hmem => ?_⟩
  obtain ⟨kind,hsent⟩ := h.stragglers swap hmem
  exact ⟨kind,hwithin.sent kind swap hsent⟩

theorem flowState_idle (hidle : s.instances i = ⟨none,.idle⟩) (hstragglers : s.stragglers = []) :
    FlowState flow i s := by
  refine ⟨?_,fun swap hmem => ?_⟩
  · rw [hidle]
    exact ⟨fun lease hlease => (by cases hlease),trivial⟩
  · rw [hstragglers] at hmem
    cases hmem

/-- Every flow holds where nothing is required. -/
def anyFlow : LeaseFlow ι := ⟨fun _ => True,fun _ => True,fun _ _ => True⟩

theorem anyFlow_holds (inst : LeaseInstance ι) : (anyFlow : LeaseFlow ι).Holds inst := by
  have hcall (kind : SwapKind) (call : SwapCall ι) : (anyFlow : LeaseFlow ι).Call kind call :=
    ⟨fun _ => trivial,fun _ => trivial⟩
  refine ⟨fun _ _ => trivial,?_⟩
  cases inst.phase with
  | idle => trivial
  | reading answer => exact fun _ _ => trivial
  | swapping kind call => exact hcall kind call
  | working heartbeat => exact fun call _ => hcall _ call
  | finishing heartbeat => exact fun call _ => hcall _ call

end States

section Steps
variable {ι : Type} [DecidableEq ι] {heartbeatIntervalMs : Nat}

/-- The swap that an action lets the store carry out, and the instance that sent it. -/
def carriedSwap (action : LeaseAction ι) (s : LeaseState ι) : Option (ι × LeaseSwap ι) :=
  match action with
  | .tick _ => none
  | .straggle index => s.stragglers[index]?
  | .move instanceId move =>
    if move.swaps then (s.instances instanceId).waiting.map (fun swap => (instanceId,swap))
    else none

/-- The swap of an instance meets the value it expects. -/
structure SwapSucceeds (heartbeatIntervalMs : Nat) (action : LeaseAction ι) (s : LeaseState ι)
    (instanceId : ι) (swap : LeaseSwap ι) : Prop where
  enabled : (leaseStep heartbeatIntervalMs action s).isSome
  carried : carriedSwap action s = some (instanceId,swap)
  expects : s.store.expects swap.expectedValue = true

variable {flow : LeaseFlow ι} {action : LeaseAction ι} {s t : LeaseState ι} {i : ι}

theorem leaseStep_flow (h : FlowState flow i s) (hread : flow.read s.store.getJsonValue)
    (hsent : ∀ (kind : SwapKind) value, action = .move i .receivePrimary →
      (s.instances i).phase = .reading (some value) →
      kind.Chosen heartbeatIntervalMs i s.store.now value →
      flow.sent kind ⟨value,createLease i s.store.now⟩)
    (hrenew : ∀ lease, (s.instances i).primaryLease = some lease →
      flow.sent .renewPrimaryLease ⟨.lease lease,createLease i s.store.now⟩)
    (hswap : ∀ kind swap, SwapSucceeds heartbeatIntervalMs action s i swap →
      flow.sent kind swap → flow.own swap.nextValue)
    (hstep : leaseStep heartbeatIntervalMs action s = some t) : FlowState flow i t := by
  have henabled : (leaseStep heartbeatIntervalMs action s).isSome := by rw [hstep]; rfl
  unfold leaseStep at hstep
  cases action with
  | tick elapsedMs =>
    cases hstep
    exact ⟨h.inst,h.stragglers⟩
  | straggle index =>
    obtain ⟨⟨j,swap⟩,hget,rfl⟩ := Option.map_eq_some_iff.mp hstep
    exact ⟨h.inst,fun swap hmem => h.stragglers swap (List.mem_of_mem_eraseIdx hmem)⟩
  | move j move =>
    obtain ⟨effect,heffect,rfl⟩ := Option.map_eq_some_iff.mp hstep
    by_cases hj : i = j
    · subst hj
      have hflow := performMove_flow h.inst hread
        (fun kind value hmove hphase hchosen => hsent kind value (by rw [hmove]) hphase hchosen)
        hrenew (fun kind swap hmove hwaiting hsent hexpects =>
          hswap kind swap ⟨henabled,by simp [carriedSwap,hmove,hwaiting],hexpects⟩ hsent) heffect
      refine ⟨by simpa [LeaseState.withEffect] using hflow.next,fun swap hmem => ?_⟩
      rcases List.mem_append.mp hmem with hold | hnew
      · exact h.stragglers swap hold
      · obtain ⟨abandoned,habandoned,heq⟩ := Option.map_eq_some_iff.mp (Option.mem_toList.mp hnew)
        cases heq
        exact hflow.abandoned swap habandoned
    · refine ⟨by simpa [LeaseState.withEffect,hj] using h.inst,fun swap hmem => ?_⟩
      rcases List.mem_append.mp hmem with hold | hnew
      · exact h.stragglers swap hold
      · obtain ⟨abandoned,-,heq⟩ := Option.map_eq_some_iff.mp (Option.mem_toList.mp hnew)
        cases heq
        exact absurd rfl hj

theorem leaseStep_primary (hstep : leaseStep heartbeatIntervalMs action s = some t) :
    s.store.now ≤ t.store.now ∧
    (((∀ i swap, ¬SwapSucceeds heartbeatIntervalMs action s i swap) ∧
        t.store.primary = s.store.primary) ∨
      ∃ i swap, SwapSucceeds heartbeatIntervalMs action s i swap ∧
        t.store = { s.store with primary := some (.lease swap.nextValue) }) := by
  have henabled : (leaseStep heartbeatIntervalMs action s).isSome := by rw [hstep]; rfl
  -- what a swap that is carried out does to the store
  have hcarried {i : ι} {swap : LeaseSwap ι} (hcarried : carriedSwap action s = some (i,swap))
      (hstore : t.store = (s.store.compareAndSwapJsonValue swap).2) :
      s.store.now ≤ t.store.now ∧
      (((∀ i swap, ¬SwapSucceeds heartbeatIntervalMs action s i swap) ∧
          t.store.primary = s.store.primary) ∨
        ∃ i swap, SwapSucceeds heartbeatIntervalMs action s i swap ∧
          t.store = { s.store with primary := some (.lease swap.nextValue) }) := by
    unfold LeaseStore.compareAndSwapJsonValue at hstore
    by_cases hexpects : s.store.expects swap.expectedValue = true
    · rw [if_pos hexpects] at hstore
      exact ⟨by simp [hstore],Or.inr ⟨i,swap,⟨henabled,hcarried,hexpects⟩,hstore⟩⟩
    · rw [if_neg hexpects] at hstore
      refine ⟨by simp [hstore],Or.inl ⟨fun j swap' hsucceeds => ?_,by rw [hstore]⟩⟩
      obtain ⟨rfl,rfl⟩ : i = j ∧ swap = swap' := by
        simpa [hcarried] using hsucceeds.carried
      exact hexpects hsucceeds.expects
  have hstep' := hstep
  unfold leaseStep at hstep'
  cases action with
  | tick elapsedMs =>
    cases hstep'
    exact ⟨by simp,Or.inl ⟨fun i swap hsucceeds => (by cases hsucceeds.carried),rfl⟩⟩
  | straggle index =>
    obtain ⟨⟨i,swap⟩,hget,rfl⟩ := Option.map_eq_some_iff.mp hstep'
    exact hcarried hget rfl
  | move i move =>
    obtain ⟨effect,heffect,rfl⟩ := Option.map_eq_some_iff.mp hstep'
    have hflow := performMove_flow (anyFlow_holds (s.instances i)) trivial
      (fun _ _ _ _ _ => trivial) (fun _ _ => trivial) (fun _ _ _ _ _ _ => trivial) heffect
    rcases hflow.store with ⟨hmove,hstore⟩ | ⟨swap,hmove,hwaiting,hstore⟩
    · have hsame : (s.withEffect i effect).store = s.store := hstore
      rw [hsame]
      refine ⟨Nat.le_refl _,Or.inl ⟨fun j swap hsucceeds => ?_,rfl⟩⟩
      have hnone := hsucceeds.carried
      simp [carriedSwap,hmove] at hnone
    · exact @hcarried i swap (by simp [carriedSwap,hmove,hwaiting]) hstore

theorem SwapSucceeds.stored {swap : LeaseSwap ι}
    (h : SwapSucceeds heartbeatIntervalMs action s i swap)
    (hstep : leaseStep heartbeatIntervalMs action s = some t) :
    t.store = { s.store with primary := some (.lease swap.nextValue) } := by
  rcases (leaseStep_primary hstep).2 with ⟨hnone,-⟩ | ⟨j,swap',hsucceeds,hstore⟩
  · exact absurd h (hnone i swap)
  · obtain ⟨rfl,rfl⟩ : i = j ∧ swap = swap' := by
      simpa [h.carried] using hsucceeds.carried
    exact hstore

omit [DecidableEq ι] in
theorem FlowState.carried {swap : LeaseSwap ι} (h : FlowState flow i s)
    (hcarried : carriedSwap action s = some (i,swap)) : ∃ kind, flow.sent kind swap := by
  cases action with
  | tick elapsedMs => cases hcarried
  | straggle index => exact h.stragglers swap (List.mem_of_getElem? hcarried)
  | move j move =>
    unfold carriedSwap at hcarried
    cases hmove : move.swaps with
    | false => simp [hmove] at hcarried
    | true =>
      obtain ⟨swap',hwaiting,heq⟩ : ∃ swap', (s.instances j).waiting = some swap' ∧
          (j,swap') = (i,swap) := by simpa [hmove] using hcarried
      cases heq
      exact h.inst.waiting hwaiting

end Steps

section Order
variable {ι : Type} {heartbeatIntervalMs : Nat}

/-- A younger lease has taken the place of this one. -/
def Outdated (lease : PrimaryLease ι) (store : LeaseStore ι) : Prop :=
  ∃ held, store.primary = some (.lease held) ∧ lease.heartbeatAt < held.heartbeatAt

/-- The lease was stored, and it still is unless it is outdated. -/
def Passed (lease : PrimaryLease ι) (store : LeaseStore ι) : Prop :=
  store.primary = some (.lease lease) ∨ Outdated lease store

def IsRenewal (instanceId : ι) (swap : LeaseSwap ι) : Prop :=
  ∃ lease, swap.expectedValue = .lease lease ∧ lease.instanceId = instanceId

/-- A swap that an instance has sent for a value the store has held. -/
structure SentSwap (heartbeatIntervalMs : Nat) (store : LeaseStore ι) (instanceId : ι)
    (kind : SwapKind) (swap : LeaseSwap ι) : Prop where
  own : swap.nextValue.instanceId = instanceId
  past : swap.nextValue.heartbeatAt ≤ store.now
  kind : kind = .renewPrimaryLease ↔ IsRenewal instanceId swap
  expected : ∀ lease, swap.expectedValue = .lease lease → Passed lease store
  age : ∀ lease, swap.expectedValue = .lease lease →
    (lease.instanceId = instanceId ∧ lease.heartbeatAt ≤ swap.nextValue.heartbeatAt) ∨
      lease.heartbeatAt + heartbeatIntervalMs * 3 < swap.nextValue.heartbeatAt

def passedFlow (heartbeatIntervalMs : Nat) (store : LeaseStore ι) (instanceId : ι) :
    LeaseFlow ι where
  own lease := lease.instanceId = instanceId ∧ lease.heartbeatAt ≤ store.now ∧ Passed lease store
  read value := ∀ lease, value = .lease lease → lease.heartbeatAt ≤ store.now ∧ Passed lease store
  sent := SentSwap heartbeatIntervalMs store instanceId

structure OrderedState (heartbeatIntervalMs : Nat) (s : LeaseState ι) : Prop where
  past : PastLease s.store
  flow : ∀ i, FlowState (passedFlow heartbeatIntervalMs s.store i) i s

theorem orderedState_initial {s : LeaseState ι} (h : InitialLease s) :
    OrderedState heartbeatIntervalMs s :=
  ⟨h.past,fun i => flowState_idle (h.instances i) h.stragglers⟩

/-- A store in which time has passed, and leases have been replaced by younger ones. -/
structure YoungerStore (store store' : LeaseStore ι) : Prop where
  now : store.now ≤ store'.now
  follows : ∀ held, store.primary = some (.lease held) → Passed held store'

theorem youngerStore_refl (store : LeaseStore ι) : YoungerStore store store :=
  ⟨Nat.le_refl _,fun _ hheld => Or.inl hheld⟩

variable {store store' : LeaseStore ι} {lease : PrimaryLease ι}

theorem Outdated.younger (h : Outdated lease store) (hyounger : YoungerStore store store') :
    Outdated lease store' := by
  obtain ⟨held,hheld,hage⟩ := h
  rcases hyounger.follows held hheld with hsame | ⟨held',hheld',hage'⟩
  · exact ⟨held,hsame,hage⟩
  · exact ⟨held',hheld',Nat.lt_trans hage hage'⟩

theorem Passed.younger (h : Passed lease store) (hyounger : YoungerStore store store') :
    Passed lease store' := by
  rcases h with hheld | hold
  · exact hyounger.follows lease hheld
  · exact Or.inr (hold.younger hyounger)

theorem YoungerStore.trans {store'' : LeaseStore ι} (h : YoungerStore store store')
    (h' : YoungerStore store' store'') : YoungerStore store store'' :=
  ⟨Nat.le_trans h.now h'.now,fun held hheld => (h.follows held hheld).younger h'⟩

theorem Outdated.not_stored (h : Outdated lease store) : store.primary ≠ some (.lease lease) := by
  obtain ⟨held,hheld,hage⟩ := h
  intro hstored
  rw [hheld] at hstored
  cases hstored
  omega

theorem passedFlow_younger {i : ι} (hyounger : YoungerStore store store') :
    (passedFlow heartbeatIntervalMs store i).Within (passedFlow heartbeatIntervalMs store' i) := by
  have hnow := hyounger.now
  refine ⟨fun lease h => ?_,fun value h lease hlease => ?_,fun kind swap h => ?_⟩
  · exact ⟨h.1,Nat.le_trans h.2.1 hnow,h.2.2.younger hyounger⟩
  · obtain ⟨hpast,hpassed⟩ := h lease hlease
    exact ⟨Nat.le_trans hpast hnow,hpassed.younger hyounger⟩
  · exact ⟨h.own,Nat.le_trans h.past hnow,h.kind,
      fun lease hlease => (h.expected lease hlease).younger hyounger,h.age⟩

theorem lease_eq {lease lease' : PrimaryLease ι} (hid : lease.instanceId = lease'.instanceId)
    (hage : lease.heartbeatAt = lease'.heartbeatAt) : lease = lease' := by
  cases lease
  cases lease'
  simp only [PrimaryLease.mk.injEq]
  exact ⟨hid,hage⟩

variable [DecidableEq ι]

theorem expects_lease : store.expects (.lease lease) = true ↔
    store.primary = some (.lease lease) := by
  simp [LeaseStore.expects]

/-- A swap that takes place leaves a younger lease, or the same one renewed within a millisecond. -/
theorem SentSwap.younger {kind : SwapKind} {instanceId : ι} {swap : LeaseSwap ι}
    (h : SentSwap heartbeatIntervalMs store instanceId kind swap)
    (hexpects : store.expects swap.expectedValue = true) :
    YoungerStore store { store with primary := some (.lease swap.nextValue) } := by
  refine ⟨Nat.le_refl _,fun held hheld => ?_⟩
  have hexpected : swap.expectedValue = .lease held := by
    cases hexp : swap.expectedValue with
    | null => simp [LeaseStore.expects,hexp,hheld] at hexpects
    | text value => simp [LeaseStore.expects,hexp,hheld] at hexpects
    | lease value => simpa [LeaseStore.expects,hexp,hheld,eq_comm] using hexpects
  rcases h.age held hexpected with ⟨hown,hage⟩ | hstale
  · rcases Nat.lt_or_ge held.heartbeatAt swap.nextValue.heartbeatAt with hlt | hge
    · exact Or.inr ⟨swap.nextValue,rfl,hlt⟩
    · left
      have hsame : swap.nextValue = held :=
        lease_eq (h.own.trans hown.symm) (Nat.le_antisymm hge hage)
      rw [hsame]
  · exact Or.inr ⟨swap.nextValue,rfl,by omega⟩

variable {action : LeaseAction ι} {s t : LeaseState ι}

theorem leaseStep_younger (h : OrderedState heartbeatIntervalMs s)
    (hstep : leaseStep heartbeatIntervalMs action s = some t) : YoungerStore s.store t.store := by
  obtain ⟨hnow,⟨-,hsame⟩ | ⟨i,swap,hsucceeds,hstore⟩⟩ := leaseStep_primary hstep
  · exact ⟨hnow,fun held hheld => Or.inl (by rw [hsame,hheld])⟩
  · obtain ⟨kind,hsent⟩ := (h.flow i).carried hsucceeds.carried
    rw [hstore]
    exact SentSwap.younger hsent hsucceeds.expects

theorem leaseStep_ordered (h : OrderedState heartbeatIntervalMs s)
    (hstep : leaseStep heartbeatIntervalMs action s = some t) :
    OrderedState heartbeatIntervalMs t := by
  have hyounger := leaseStep_younger h hstep
  have hnow := hyounger.now
  refine ⟨fun lease hlease => ?_,fun i => ?_⟩
  · obtain ⟨-,⟨-,hsame⟩ | ⟨i,swap,hsucceeds,hstore⟩⟩ := leaseStep_primary hstep
    · rw [hsame] at hlease
      exact Nat.le_trans (h.past lease hlease) hnow
    · obtain ⟨kind,hsent⟩ := (h.flow i).carried hsucceeds.carried
      rw [hstore] at hlease ⊢
      cases hlease
      exact hsent.past
  · have hflow := h.flow i
    refine leaseStep_flow (hflow.mono (passedFlow_younger hyounger)) (fun lease hlease => ?_)
      (fun kind value _ hphase hchosen => ?_) (fun lease hcached => ?_)
      (fun kind swap hsucceeds hsent => ?_) hstep
    · have hstored := getJsonValue_lease hlease
      exact ⟨Nat.le_trans (h.past lease hstored) hnow,hyounger.follows lease hstored⟩
    · have hread := hflow.inst.phase
      rw [hphase] at hread
      have hread : ∀ lease, value = .lease lease →
          lease.heartbeatAt ≤ s.store.now ∧ Passed lease s.store := hread value rfl
      refine ⟨rfl,hnow,?_,fun lease hlease => (hread lease hlease).2.younger hyounger,?_⟩
      · cases kind with
        | renewPrimaryLease => exact ⟨fun _ => hchosen,fun _ => rfl⟩
        | claimPrimaryLease =>
          refine ⟨fun heq => (by cases heq),?_⟩
          rintro ⟨lease,hlease,hown⟩
          exact absurd hown (hchosen lease hlease).1
      · intro lease hlease
        cases kind with
        | renewPrimaryLease =>
          obtain ⟨lease',hlease',hown⟩ := hchosen
          obtain rfl : lease = lease' := by
            have hsame := hlease.symm.trans hlease'
            cases hsame
            rfl
          exact Or.inl ⟨hown,(hread lease hlease).1⟩
        | claimPrimaryLease => exact Or.inr (hchosen lease hlease).2
    · obtain ⟨hown,hpast,hpassed⟩ := hflow.inst.cached lease hcached
      refine ⟨rfl,hnow,⟨fun _ => ⟨lease,rfl,hown⟩,fun _ => rfl⟩,?_,?_⟩
      · intro lease' heq
        cases heq
        exact hpassed.younger hyounger
      · intro lease' heq
        cases heq
        exact Or.inl ⟨hown,hpast⟩
    · have hstored := hsucceeds.stored hstep
      have hsent : SentSwap heartbeatIntervalMs t.store i kind swap := hsent
      exact ⟨hsent.own,hsent.past,Or.inl (by rw [hstored])⟩

theorem leaseRun_ordered {actions : List (LeaseAction ι)} (h : OrderedState heartbeatIntervalMs s)
    (hrun : leaseRun heartbeatIntervalMs actions s = some t) :
    OrderedState heartbeatIntervalMs t :=
  Machine.run_invariant (fun _ _ _ hs hstep => leaseStep_ordered hs hstep) h hrun

theorem leaseRun_younger {actions : List (LeaseAction ι)} (h : OrderedState heartbeatIntervalMs s)
    (hrun : leaseRun heartbeatIntervalMs actions s = some t) : YoungerStore s.store t.store := by
  have hboth : OrderedState heartbeatIntervalMs t ∧ YoungerStore s.store t.store :=
    Machine.run_invariant (I := fun t => OrderedState heartbeatIntervalMs t ∧
        YoungerStore s.store t.store)
      (fun _ _ _ hs hstep => ⟨leaseStep_ordered hs.1 hstep,
        hs.2.trans (leaseStep_younger hs.1 hstep)⟩) ⟨h,youngerStore_refl s.store⟩ hrun
  exact hboth.2

end Order

section Lost
variable {ι : Type} {heartbeatIntervalMs : Nat} {s : LeaseState ι} {i : ι}

/-- A renewal or a claim that the store may still carry out. -/
def Pending (s : LeaseState ι) (i : ι) (swap : LeaseSwap ι) : Prop :=
  (s.instances i).waiting = some swap ∨ (i,swap) ∈ s.stragglers

/-- The leases an instance has stored before it lost the lease to another. -/
def deposedFlow (store : LeaseStore ι) (i : ι) : LeaseFlow ι where
  own lease := Outdated lease store
  read value := ∀ lease, value = .lease lease → lease.instanceId = i → Outdated lease store
  sent _ swap := ∀ lease, swap.expectedValue = .lease lease → lease.instanceId = i →
    Outdated lease store

structure Deposed (s : LeaseState ι) (i : ι) : Prop where
  other : HeldByOther s i
  flow : FlowState (deposedFlow s.store i) i s

theorem Passed.outdated {lease : PrimaryLease ι} (h : Passed lease s.store)
    (hother : HeldByOther s i) (hown : lease.instanceId = i) : Outdated lease s.store := by
  rcases h with hheld | hold
  · obtain ⟨held,hstored,hid⟩ := hother
    rw [hheld] at hstored
    cases hstored
    exact absurd hown hid
  · exact hold

theorem deposedFlow_younger {store store' : LeaseStore ι} (hyounger : YoungerStore store store') :
    (deposedFlow store i).Within (deposedFlow store' i) :=
  ⟨fun _ h => h.younger hyounger,fun _ h lease hlease hown =>
    (h lease hlease hown).younger hyounger,
    fun _ _ h lease hlease hown => (h lease hlease hown).younger hyounger⟩

theorem deposed_of_heldByOther (h : OrderedState heartbeatIntervalMs s) (hother : HeldByOther s i) :
    Deposed s i := by
  refine ⟨hother,(h.flow i).mono ⟨fun lease hown => ?_,fun value hread lease hlease hown => ?_,
    fun kind swap hsent lease hlease hown => ?_⟩⟩
  · exact hown.2.2.outdated hother hown.1
  · exact (hread lease hlease).2.outdated hother hown
  · exact (hsent.expected lease hlease).outdated hother hown

end Lost

section Takeover
variable {ι : Type} [DecidableEq ι] {heartbeatIntervalMs : Nat} {s₀ : LeaseState ι}

/-- The instance had read the lease of another and found it stale when it sent the swap. -/
def CheckedStale (heartbeatIntervalMs : Nat) (s₀ : LeaseState ι) (passed : List (LeaseAction ι))
    (i : ι) (swap : LeaseSwap ι) (lease : PrimaryLease ι) : Prop :=
  ∃ before between u, passed = before ++ .move i .receivePrimary::between ∧
    leaseRun heartbeatIntervalMs before s₀ = some u ∧
    (u.instances i).phase = .reading (some (.lease lease)) ∧
    lease.heartbeatAt + heartbeatIntervalMs * 3 < u.store.now ∧
    swap = ⟨.lease lease,createLease i u.store.now⟩

theorem CheckedStale.snoc {passed : List (LeaseAction ι)} {i : ι} {swap : LeaseSwap ι}
    {lease : PrimaryLease ι} (h : CheckedStale heartbeatIntervalMs s₀ passed i swap lease)
    (action : LeaseAction ι) :
    CheckedStale heartbeatIntervalMs s₀ (passed ++ [action]) i swap lease := by
  obtain ⟨before,between,u,rfl,hrest⟩ := h
  exact ⟨before,between ++ [action],u,by simp,hrest⟩

def takeoverFlow (heartbeatIntervalMs : Nat) (s₀ : LeaseState ι) (passed : List (LeaseAction ι))
    (i : ι) : LeaseFlow ι where
  own _ := True
  read _ := True
  sent _ swap := ∀ lease, swap.expectedValue = .lease lease → lease.instanceId ≠ i →
    CheckedStale heartbeatIntervalMs s₀ passed i swap lease

theorem leaseRun_takeoverFlow {passed : List (LeaseAction ι)} {s : LeaseState ι}
    (h : InitialLease s₀) (hrun : leaseRun heartbeatIntervalMs passed s₀ = some s) (i : ι) :
    FlowState (takeoverFlow heartbeatIntervalMs s₀ passed i) i s := by
  induction passed using List.reverseRecOn generalizing s with
  | nil =>
    cases hrun
    exact flowState_idle (h.instances i) h.stragglers
  | append_singleton passed action ih =>
    have hrun' := hrun
    unfold leaseRun at hrun'
    rw [Machine.run_snoc] at hrun'
    obtain ⟨u,hu,hstep⟩ := Option.bind_eq_some_iff.mp hrun'
    have hordered := leaseRun_ordered (orderedState_initial h) hu
    have hbefore : FlowState (takeoverFlow heartbeatIntervalMs s₀ (passed ++ [action]) i) i u :=
      (ih hu).mono ⟨fun _ _ => trivial,fun _ _ => trivial,
        fun kind swap hsent lease hlease hother => (hsent lease hlease hother).snoc action⟩
    refine leaseStep_flow hbefore trivial (fun kind value haction hphase hchosen => ?_)
      (fun lease hcached => ?_) (fun _ _ _ _ => trivial) hstep
    · subst haction
      intro lease hlease hother
      obtain rfl : value = .lease lease := hlease
      cases kind with
      | renewPrimaryLease =>
        obtain ⟨lease',heq,hown⟩ := hchosen
        cases heq
        exact absurd hown hother
      | claimPrimaryLease => exact ⟨passed,[],u,rfl,hu,hphase,(hchosen lease rfl).2,rfl⟩
    · intro lease' heq hother
      cases heq
      exact absurd ((hordered.flow i).inst.cached lease hcached).1 hother

/-- Since a run has come back to a lease it has passed, it has stored nothing else between. -/
theorem stored_between {before after : List (LeaseAction ι)} {u v t : LeaseState ι}
    {lease : PrimaryLease ι} (hordered : OrderedState heartbeatIntervalMs u)
    (hpassed : Passed lease u.store) (hbefore : leaseRun heartbeatIntervalMs before u = some v)
    (hafter : leaseRun heartbeatIntervalMs after v = some t)
    (hstored : t.store.primary = some (.lease lease)) : v.store.primary = some (.lease lease) := by
  have hv := leaseRun_ordered hordered hbefore
  rcases hpassed.younger (leaseRun_younger hordered hbefore) with hheld | hold
  · exact hheld
  · exact absurd hstored (hold.younger (leaseRun_younger hv hafter)).not_stored

variable {s t : LeaseState ι} {i : ι} {action : LeaseAction ι}

theorem Deposed.refused {swap : LeaseSwap ι} (h : Deposed s i)
    (hcarried : carriedSwap action s = some (i,swap)) (hrenewal : IsRenewal i swap) :
    s.store.expects swap.expectedValue = false := by
  obtain ⟨kind,hsent⟩ := h.flow.carried hcarried
  obtain ⟨lease,hlease,hown⟩ := hrenewal
  rw [hlease,Bool.eq_false_iff]
  exact fun hexpects => (hsent lease hlease hown).not_stored (expects_lease.mp hexpects)

theorem leaseStep_deposed (hordered : OrderedState heartbeatIntervalMs s) (h : Deposed s i)
    (hclaim : ∀ swap, SwapSucceeds heartbeatIntervalMs action s i swap → IsRenewal i swap)
    (hstep : leaseStep heartbeatIntervalMs action s = some t) : Deposed t i := by
  have hyounger := leaseStep_younger hordered hstep
  have hfails (swap : LeaseSwap ι) : ¬SwapSucceeds heartbeatIntervalMs action s i swap := by
    intro hsucceeds
    have hrefused := h.refused hsucceeds.carried (hclaim swap hsucceeds)
    rw [hsucceeds.expects] at hrefused
    cases hrefused
  have hother : HeldByOther t i := by
    obtain ⟨-,⟨-,hsame⟩ | ⟨j,swap,hsucceeds,hstore⟩⟩ := leaseStep_primary hstep
    · obtain ⟨held,hheld,hid⟩ := h.other
      exact ⟨held,by rw [hsame,hheld],hid⟩
    · obtain ⟨kind,hsent⟩ := (hordered.flow j).carried hsucceeds.carried
      refine ⟨swap.nextValue,by rw [hstore],fun heq => ?_⟩
      obtain rfl : j = i := hsent.own.symm.trans heq
      exact hfails swap hsucceeds
  have hread (lease : PrimaryLease ι) (hlease : s.store.primary = some (.lease lease))
      (hown : lease.instanceId = i) : Outdated lease t.store :=
    (hyounger.follows lease hlease).outdated hother hown
  refine ⟨hother,leaseStep_flow (h.flow.mono (deposedFlow_younger hyounger)) ?_ ?_ ?_ ?_ hstep⟩
  · exact fun lease hlease hown => hread lease (getJsonValue_lease hlease) hown
  · intro kind value _ hphase hchosen lease hlease hown
    have hvalue := h.flow.inst.phase
    rw [hphase] at hvalue
    exact Outdated.younger (hvalue value rfl lease hlease hown) hyounger
  · intro lease hcached lease' heq hown
    cases heq
    exact Outdated.younger (h.flow.inst.cached lease hcached) hyounger
  · intro kind swap hsucceeds
    exact absurd hsucceeds (hfails swap)

theorem leaseRun_deposed {actions : List (LeaseAction ι)}
    (hordered : OrderedState heartbeatIntervalMs s) (h : Deposed s i)
    (hclaim : ∀ passed action ahead u swap, actions = passed ++ action::ahead →
      leaseRun heartbeatIntervalMs passed s = some u →
      SwapSucceeds heartbeatIntervalMs action u i swap → IsRenewal i swap)
    (hrun : leaseRun heartbeatIntervalMs actions s = some t) : Deposed t i := by
  have hboth : OrderedState heartbeatIntervalMs t ∧ Deposed t i :=
    Machine.run_invariant_of
      (I := fun t => OrderedState heartbeatIntervalMs t ∧ Deposed t i)
      (C := fun action u => ∀ swap, SwapSucceeds heartbeatIntervalMs action u i swap →
        IsRenewal i swap)
      (fun _ _ _ hs hC hstep => ⟨leaseStep_ordered hs.1 hstep,
        leaseStep_deposed hs.1 hs.2 hC hstep⟩) ⟨hordered,h⟩
      (fun passed action ahead u heq hu swap => hclaim passed action ahead u swap heq hu) hrun
  exact hboth.2

theorem Pending.refused {actions : List (LeaseAction ι)} {swap : LeaseSwap ι}
    (hordered : OrderedState heartbeatIntervalMs s) (hother : HeldByOther s i)
    (hpending : Pending s i swap) (hrenewal : IsRenewal i swap)
    (hrun : leaseRun heartbeatIntervalMs actions s = some t) :
    t.store.expects swap.expectedValue = false := by
  obtain ⟨lease,hlease,hown⟩ := hrenewal
  have hflow := (deposed_of_heldByOther hordered hother).flow
  obtain ⟨kind,hsent⟩ : ∃ kind, (deposedFlow s.store i).sent kind swap := by
    rcases hpending with hwaiting | hstraggler
    · exact hflow.inst.waiting hwaiting
    · exact hflow.stragglers swap hstraggler
  have hold := Outdated.younger (hsent lease hlease hown) (leaseRun_younger hordered hrun)
  rw [hlease,Bool.eq_false_iff]
  exact fun hexpects => hold.not_stored (expects_lease.mp hexpects)

theorem SwapSucceeds.not_expected {actions : List (LeaseAction ι)} {u : LeaseState ι}
    {swap : LeaseSwap ι} (hordered : OrderedState heartbeatIntervalMs s)
    (h : SwapSucceeds heartbeatIntervalMs action s i swap) (hclaim : ¬IsRenewal i swap)
    (hstep : leaseStep heartbeatIntervalMs action s = some t)
    (hrun : leaseRun heartbeatIntervalMs actions t = some u) :
    u.store.expects swap.expectedValue = false := by
  obtain ⟨kind,hsent⟩ := (hordered.flow i).carried h.carried
  have hstored : t.store.primary = some (.lease swap.nextValue) := by rw [h.stored hstep]
  have hpassed : Passed swap.nextValue u.store :=
    (leaseRun_younger (leaseStep_ordered hordered hstep) hrun).follows _ hstored
  obtain ⟨held,hheld,hage⟩ : ∃ held, u.store.primary = some (.lease held) ∧
      swap.nextValue.heartbeatAt ≤ held.heartbeatAt := by
    rcases hpassed with hsame | ⟨held,hheld,hlt⟩
    · exact ⟨_,hsame,Nat.le_refl _⟩
    · exact ⟨held,hheld,Nat.le_of_lt hlt⟩
  cases hexp : swap.expectedValue with
  | null => simp [LeaseStore.expects,hheld]
  | text value => simp [LeaseStore.expects,hheld]
  | lease lease =>
    rcases hsent.age lease hexp with ⟨hown,-⟩ | hstale
    · exact absurd ⟨lease,hexp,hown⟩ hclaim
    · rw [Bool.eq_false_iff]
      intro hexpects
      rw [expects_lease,hheld] at hexpects
      cases hexpects
      omega

/-- The renewal that an instance waits for, in `leaseLeadership` or in its heartbeat. -/
def LeaseInstance.renewal (inst : LeaseInstance ι) : Option (SwapCall ι) :=
  match inst.phase with
  | .swapping .renewPrimaryLease call => some call
  | .working heartbeat => heartbeat.renewal
  | .finishing heartbeat => heartbeat.renewal
  | _ => none

/-- The store answers a renewal with what it expects; only a `true` keeps a lease cached. -/
structure RenewalStep (move : LeaseMove) (store : LeaseStore ι) (inst next : LeaseInstance ι) :
    Prop where
  answered : ∀ swap, move.swaps = true → inst.renewal = some ⟨swap,none⟩ →
    next.renewal = some ⟨swap,some (store.expects swap.expectedValue)⟩
  dropped : ∀ call, inst.renewal = some call → next.renewal = none → call.answer ≠ some true →
    next.primaryLease = none

theorem performMove_renewal {move : LeaseMove} {store : LeaseStore ι} {inst : LeaseInstance ι}
    {effect : LeaseEffect ι} (hmove : performMove heartbeatIntervalMs i move store inst =
      some effect) :
    RenewalStep move store inst effect.next := by
  obtain ⟨primaryLease,phase⟩ := inst
  -- a move from a phase without a renewal
  have hnone {next : LeaseInstance ι}
      (h : (⟨primaryLease,phase⟩ : LeaseInstance ι).renewal = none) :
      RenewalStep move store ⟨primaryLease,phase⟩ next := by
    refine ⟨fun swap _ hsome => ?_,fun call hsome => ?_⟩
    · rw [h] at hsome
      cases hsome
    · rw [h] at hsome
      cases hsome
  have hanswer (swap : LeaseSwap ι) : (SwapCall.carriedOut ⟨swap,none⟩ store).1 =
      ⟨swap,some (store.expects swap.expectedValue)⟩ := by
    unfold SwapCall.carriedOut LeaseStore.compareAndSwapJsonValue
    cases hexp : store.expects swap.expectedValue <;> simp
  unfold performMove at hmove
  split at hmove
  case h_1 _ _ hphase =>
    obtain rfl : phase = .idle := hphase
    exact hnone rfl
  case h_2 _ _ hphase =>
    obtain rfl : phase = .reading none := hphase
    exact hnone rfl
  case h_3 _ _ current hphase =>
    obtain rfl : phase = .reading (some current) := hphase
    exact hnone rfl
  case h_4 _ _ answer hphase =>
    obtain rfl : phase = .reading answer := hphase
    exact hnone rfl
  case h_5 _ _ kind swap hphase =>
    cases hmove
    obtain rfl : phase = .swapping kind ⟨swap,none⟩ := hphase
    cases kind with
    | claimPrimaryLease => exact hnone rfl
    | renewPrimaryLease =>
      refine ⟨fun swap' _ hsome => ?_,fun call _ hgone => (by cases hgone)⟩
      cases hsome
      exact congrArg some (hanswer swap)
  case h_6 _ _ kind swap swapped hphase =>
    cases hmove
    obtain rfl : phase = .swapping kind ⟨swap,some swapped⟩ := hphase
    cases kind with
    | claimPrimaryLease => exact hnone rfl
    | renewPrimaryLease =>
      refine ⟨fun swap' hswaps => (by cases hswaps),fun call hsome _ hfailed => ?_⟩
      cases hsome
      cases swapped with
      | false => rfl
      | true => exact absurd rfl hfailed
  case h_7 _ _ kind call hphase =>
    cases hmove
    obtain rfl : phase = .swapping kind call := hphase
    cases kind with
    | claimPrimaryLease => exact hnone rfl
    | renewPrimaryLease => exact ⟨fun swap hswaps => (by cases hswaps),fun _ _ _ _ => rfl⟩
  case h_8 _ _ setAt renewal hphase =>
    obtain rfl : phase = .working ⟨some setAt,renewal⟩ := hphase
    split at hmove
    · cases hmove
      refine ⟨fun swap hswaps => (by cases hswaps),fun call hsome hgone _ => ?_⟩
      cases primaryLease with
      | none => rfl
      | some expectedLease => cases hgone
    · cases hmove
  case h_9 _ _ timer swap hphase =>
    cases hmove
    obtain rfl : phase = .working ⟨timer,some ⟨swap,none⟩⟩ := hphase
    refine ⟨fun swap' _ hsome => ?_,fun call _ hgone => (by cases hgone)⟩
    cases hsome
    exact congrArg some (hanswer swap)
  case h_10 _ _ timer swap hphase =>
    cases hmove
    obtain rfl : phase = .finishing ⟨timer,some ⟨swap,none⟩⟩ := hphase
    refine ⟨fun swap' _ hsome => ?_,fun call _ hgone => (by cases hgone)⟩
    cases hsome
    exact congrArg some (hanswer swap)
  case h_11 _ _ timer swap swapped hphase =>
    cases hmove
    obtain rfl : phase = .working ⟨timer,some ⟨swap,some swapped⟩⟩ := hphase
    refine ⟨fun swap' hswaps => (by cases hswaps),fun call hsome _ hfailed => ?_⟩
    cases hsome
    cases swapped with
    | false => rfl
    | true => exact absurd rfl hfailed
  case h_12 _ _ timer swap swapped hphase =>
    cases hmove
    obtain rfl : phase = .finishing ⟨timer,some ⟨swap,some swapped⟩⟩ := hphase
    refine ⟨fun swap' hswaps => (by cases hswaps),fun call hsome _ hfailed => ?_⟩
    cases hsome
    cases swapped with
    | false => rfl
    | true => exact absurd rfl hfailed
  case h_13 =>
    cases hmove
    exact ⟨fun swap hswaps => (by cases hswaps),fun _ _ _ _ => rfl⟩
  case h_14 =>
    cases hmove
    exact ⟨fun swap hswaps => (by cases hswaps),fun _ _ _ _ => rfl⟩
  case h_15 =>
    cases hmove
    refine ⟨fun swap hswaps => (by cases hswaps),fun call hsome hgone _ => ?_⟩
    unfold assertPrimaryLease at hgone ⊢
    split
    · rename_i hcached _
      exact hcached
    · simp [hsome] at hgone
  case h_16 _ _ heartbeat hphase =>
    cases hmove
    obtain rfl : phase = .working heartbeat := hphase
    refine ⟨fun swap hswaps => (by cases hswaps),fun call hsome hgone _ => ?_⟩
    have hsome : heartbeat.renewal = some call := hsome
    have hgone : heartbeat.renewal = none := hgone
    rw [hgone] at hsome
    cases hsome
  case h_17 _ _ timer hphase =>
    cases hmove
    obtain rfl : phase = .finishing ⟨timer,none⟩ := hphase
    exact hnone rfl
  case h_18 => cases hmove

/-- What the run has established when it reaches `s`. -/
structure TakeoverSafe (heartbeatIntervalMs : Nat) (s₀ : LeaseState ι)
    (passed : List (LeaseAction ι)) (s : LeaseState ι) : Prop where
  /-- A lease of another instance was stale when the taker checked it, and has stayed stored. -/
  stale : ∀ action i swap lease, SwapSucceeds heartbeatIntervalMs action s i swap →
    swap.expectedValue = .lease lease → lease.instanceId ≠ i →
    ∃ before between u, passed = before ++ .move i .receivePrimary::between ∧
      leaseRun heartbeatIntervalMs before s₀ = some u ∧
      (u.instances i).phase = .reading (some (.lease lease)) ∧
      lease.heartbeatAt + heartbeatIntervalMs * 3 < u.store.now ∧
      swap = ⟨.lease lease,createLease i u.store.now⟩ ∧
      ∀ seen rest v, .move i .receivePrimary::between = seen ++ rest →
        leaseRun heartbeatIntervalMs seen u = some v → v.store.primary = some (.lease lease)
  /-- A renewal finds the lease of its own instance that it expects. -/
  renewal : ∀ action i swap, SwapSucceeds heartbeatIntervalMs action s i swap →
    IsRenewal i swap → ∃ lease, swap.expectedValue = .lease lease ∧ lease.instanceId = i ∧
      s.store.primary = some (.lease lease)
  /-- Once another instance holds the lease, no pending renewal succeeds, -/
  pending : ∀ i, HeldByOther s i → ∀ swap, Pending s i swap → IsRenewal i swap →
    ∀ ahead t, leaseRun heartbeatIntervalMs ahead s = some t →
      t.store.expects swap.expectedValue = false
  /-- and no later one before a claim of the instance does; -/
  later : ∀ i, HeldByOther s i → ∀ ahead t, leaseRun heartbeatIntervalMs ahead s = some t →
    (∀ seen action rest u swap, ahead = seen ++ action::rest →
      leaseRun heartbeatIntervalMs seen s = some u →
      SwapSucceeds heartbeatIntervalMs action u i swap → IsRenewal i swap) →
    ∀ action swap, carriedSwap action t = some (i,swap) → IsRenewal i swap →
      t.store.expects swap.expectedValue = false
  /-- a renewal that was refused, or had no answer, leaves no cached lease. -/
  cleared : ∀ i move t, leaseStep heartbeatIntervalMs (.move i move) s = some t →
    RenewalStep move s.store (s.instances i) (t.instances i)
  /-- Of the swaps that expect the value a claim replaced, no other succeeds. -/
  claim : ∀ action i swap t, SwapSucceeds heartbeatIntervalMs action s i swap →
    ¬IsRenewal i swap → leaseStep heartbeatIntervalMs action s = some t →
    ∀ ahead u action' j swap', leaseRun heartbeatIntervalMs ahead t = some u →
      swap'.expectedValue = swap.expectedValue →
      ¬SwapSucceeds heartbeatIntervalMs action' u j swap'

/-- A lease is only taken from a stale owner. -/
theorem lease_takeover {passed : List (LeaseAction ι)} (h : InitialLease s₀)
    (hrun : leaseRun heartbeatIntervalMs passed s₀ = some s) :
    TakeoverSafe heartbeatIntervalMs s₀ passed s := by
  have hordered := leaseRun_ordered (orderedState_initial h) hrun
  constructor
  case stale =>
    intro action i swap lease hsucceeds hexp hother
    obtain ⟨kind,hsent⟩ := (leaseRun_takeoverFlow h hrun i).carried hsucceeds.carried
    obtain ⟨before,between,u,hpassed,hu,hphase,hstale,hswap⟩ := hsent lease hexp hother
    refine ⟨before,between,u,hpassed,hu,hphase,hstale,hswap,fun seen rest v hsplit hv => ?_⟩
    have hordered := leaseRun_ordered (orderedState_initial h) hu
    have hread := (hordered.flow i).inst.phase
    rw [hphase] at hread
    have hseen : Passed lease u.store := (hread _ rfl lease rfl).2
    have hafter : leaseRun heartbeatIntervalMs rest v = some s := by
      unfold leaseRun at hrun hu hv ⊢
      rw [hpassed,hsplit,Machine.run_append,hu,Option.bind_some,Machine.run_append,hv] at hrun
      exact hrun
    refine stored_between hordered hseen hv hafter ?_
    have hexpects := hsucceeds.expects
    rw [hexp] at hexpects
    exact expects_lease.mp hexpects
  case renewal =>
    rintro action i swap hsucceeds ⟨lease,hexp,hown⟩
    have hexpects := hsucceeds.expects
    rw [hexp] at hexpects
    exact ⟨lease,hexp,hown,expects_lease.mp hexpects⟩
  case pending =>
    intro i hother swap hpending hrenewal ahead t hahead
    exact hpending.refused hordered hother hrenewal hahead
  case later =>
    intro i hother ahead t hahead hclaims action swap hcarried hrenewal
    exact (leaseRun_deposed hordered (deposed_of_heldByOther hordered hother) hclaims
      hahead).refused hcarried hrenewal
  case cleared =>
    intro i move t hstep
    obtain ⟨effect,heffect,rfl⟩ := Option.map_eq_some_iff.mp hstep
    simpa [LeaseState.withEffect] using performMove_renewal heffect
  case claim =>
    intro action i swap t hsucceeds hclaim hstep ahead u action' j swap' hahead heq hsucceeds'
    have hrefused := hsucceeds.not_expected hordered hclaim hstep hahead
    rw [← heq,hsucceeds'.expects] at hrefused
    cases hrefused

end Takeover

/-- `true` takes the lease that `false` has not renewed for 16 s. -/
theorem lease_takeover_hungRenewal : ∃ s, leaseRun 5000
      (takeLease false ++ [.tick 5000,.move false .fireHeartbeat,.tick 11000,
        .move true .leaseLeadership,.move true .readPrimary,.move true .receivePrimary])
      idleInstances = some s ∧
    TakeoverSafe 5000 idleInstances
      (takeLease false ++ [.tick 5000,.move false .fireHeartbeat,.tick 11000,
        .move true .leaseLeadership,.move true .readPrimary,.move true .receivePrimary]) s ∧
    SwapSucceeds 5000 (.move true .swapLeadership) s true ⟨.lease ⟨false,0⟩,⟨true,16000⟩⟩ :=
  ⟨_,rfl,lease_takeover idleInstances_initial rfl,⟨rfl,rfl,rfl⟩⟩

end OnlyDoge
