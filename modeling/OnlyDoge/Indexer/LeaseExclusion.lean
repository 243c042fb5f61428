import OnlyDoge.Indexer.Lease
set_option autoImplicit false

/-! Who holds the stored lease when an instance passes its check. -/

namespace OnlyDoge

section Store
variable {ι : Type} {heartbeatIntervalMs : Nat}

/-- A lease that was stored at `heartbeatAt` is still held, or old enough to be replaced. -/
def SafeLease (heartbeatIntervalMs : Nat) (store : LeaseStore ι) (lease : PrimaryLease ι) : Prop :=
  lease.heartbeatAt + heartbeatIntervalMs * 3 < store.now ∨
    ∃ held, store.primary = some (.lease held) ∧ held.instanceId = lease.instanceId ∧
      lease.heartbeatAt ≤ held.heartbeatAt

/-- A swap replaces a lease of its own instance by a younger one, or a stale one. -/
structure SoundSwap (heartbeatIntervalMs : Nat) (store : LeaseStore ι) (instanceId : ι)
    (swap : LeaseSwap ι) : Prop where
  own : swap.nextValue.instanceId = instanceId
  past : swap.nextValue.heartbeatAt ≤ store.now
  expected : ∀ lease, swap.expectedValue = .lease lease →
    (lease.instanceId = instanceId ∧ lease.heartbeatAt ≤ swap.nextValue.heartbeatAt) ∨
      lease.heartbeatAt + heartbeatIntervalMs * 3 < store.now

/-- Time has passed and no lease was lost before it could be replaced. -/
structure LaterStore (heartbeatIntervalMs : Nat) (store store' : LeaseStore ι) : Prop where
  now : store.now ≤ store'.now
  safe : ∀ lease, SafeLease heartbeatIntervalMs store lease →
    SafeLease heartbeatIntervalMs store' lease

def PastLease (store : LeaseStore ι) : Prop :=
  ∀ lease, store.primary = some (.lease lease) → lease.heartbeatAt ≤ store.now

theorem getJsonValue_lease {store : LeaseStore ι} {lease : PrimaryLease ι}
    (h : store.getJsonValue = .lease lease) : store.primary = some (.lease lease) := by
  unfold LeaseStore.getJsonValue at h
  cases hstored : store.primary with
  | none => simp [hstored] at h
  | some value => simpa [hstored] using h

theorem laterStore_refl (store : LeaseStore ι) : LaterStore heartbeatIntervalMs store store :=
  ⟨Nat.le_refl _,fun _ h => h⟩

theorem laterStore_tick (heartbeatIntervalMs : Nat) (store : LeaseStore ι) (elapsedMs : Nat) :
    LaterStore heartbeatIntervalMs store { store with now := store.now + elapsedMs } := by
  refine ⟨Nat.le_add_right _ _,fun lease h => ?_⟩
  rcases h with hold | hheld
  · left
    simp only
    omega
  · exact Or.inr hheld

theorem SoundSwap.later {store store' : LeaseStore ι} {instanceId : ι} {swap : LeaseSwap ι}
    (h : SoundSwap heartbeatIntervalMs store instanceId swap)
    (hlater : LaterStore heartbeatIntervalMs store store') :
    SoundSwap heartbeatIntervalMs store' instanceId swap := by
  have hnow := hlater.now
  refine ⟨h.own,Nat.le_trans h.past hnow,fun lease hlease => ?_⟩
  rcases h.expected lease hlease with hown | hstale
  · exact Or.inl hown
  · right
    omega

variable [DecidableEq ι]

theorem compareAndSwap_cases (store : LeaseStore ι) (swap : LeaseSwap ι) :
    (store.compareAndSwapJsonValue swap = (false,store)) ∨
    (store.compareAndSwapJsonValue swap =
        (true,{ store with primary := some (.lease swap.nextValue) }) ∧
      ∀ lease, store.primary = some (.lease lease) → swap.expectedValue = .lease lease) := by
  unfold LeaseStore.compareAndSwapJsonValue
  by_cases h : store.expects swap.expectedValue = true
  · refine Or.inr ⟨if_pos h,fun lease hlease => ?_⟩
    cases hexp : swap.expectedValue with
    | null => simp [LeaseStore.expects,hexp,hlease] at h
    | text value => simp [LeaseStore.expects,hexp,hlease] at h
    | lease value => simpa [LeaseStore.expects,hexp,hlease,eq_comm] using h
  · exact Or.inl (if_neg h)

theorem compareAndSwap_later {store : LeaseStore ι} {instanceId : ι} {swap : LeaseSwap ι}
    (h : SoundSwap heartbeatIntervalMs store instanceId swap) :
    LaterStore heartbeatIntervalMs store (store.compareAndSwapJsonValue swap).2 := by
  rcases compareAndSwap_cases store swap with heq | ⟨heq,hexpected⟩
  · rw [heq]
    exact laterStore_refl store
  · rw [heq]
    refine ⟨Nat.le_refl _,fun lease hlease => ?_⟩
    rcases hlease with hold | ⟨held,hstored,hid,hage⟩
    · exact Or.inl hold
    · rcases h.expected held (hexpected held hstored) with ⟨hown,hyounger⟩ | hstale
      · exact Or.inr ⟨swap.nextValue,rfl,h.own.trans (hown.symm.trans hid),
          Nat.le_trans hage hyounger⟩
      · left
        simp only
        omega

theorem compareAndSwap_past {store : LeaseStore ι} {instanceId : ι} {swap : LeaseSwap ι}
    (hpast : PastLease store) (h : SoundSwap heartbeatIntervalMs store instanceId swap) :
    PastLease (store.compareAndSwapJsonValue swap).2 := by
  rcases compareAndSwap_cases store swap with heq | ⟨heq,-⟩
  · rw [heq]
    exact hpast
  · rw [heq]
    intro lease hlease
    cases hlease
    exact h.past

theorem compareAndSwap_safe (store : LeaseStore ι) (swap : LeaseSwap ι)
    (h : (store.compareAndSwapJsonValue swap).1 = true) :
    SafeLease heartbeatIntervalMs (store.compareAndSwapJsonValue swap).2 swap.nextValue := by
  rcases compareAndSwap_cases store swap with heq | ⟨heq,-⟩
  · rw [heq] at h
    cases h
  · rw [heq]
    exact Or.inr ⟨swap.nextValue,rfl,rfl,Nat.le_refl _⟩

end Store

section Instance
variable {ι : Type} {heartbeatIntervalMs : Nat}

/-- A lease that the instance has stored, and that is safe. -/
structure OwnLease (heartbeatIntervalMs : Nat) (store : LeaseStore ι) (instanceId : ι)
    (lease : PrimaryLease ι) : Prop where
  own : lease.instanceId = instanceId
  past : lease.heartbeatAt ≤ store.now
  safe : SafeLease heartbeatIntervalMs store lease

structure SoundCall (heartbeatIntervalMs : Nat) (store : LeaseStore ι) (instanceId : ι)
    (call : SwapCall ι) : Prop where
  swap : SoundSwap heartbeatIntervalMs store instanceId call.swap
  swapped : call.answer = some true →
    OwnLease heartbeatIntervalMs store instanceId call.swap.nextValue

def SoundHeartbeat (heartbeatIntervalMs : Nat) (store : LeaseStore ι) (instanceId : ι)
    (heartbeat : Heartbeat ι) : Prop :=
  ∀ call, heartbeat.renewal = some call → SoundCall heartbeatIntervalMs store instanceId call

def SoundPhase (heartbeatIntervalMs : Nat) (store : LeaseStore ι) (instanceId : ι) :
    LeasePhase ι → Prop
  | .idle => True
  | .reading answer => ∀ lease, answer = some (.lease lease) → lease.heartbeatAt ≤ store.now
  | .swapping _ call => SoundCall heartbeatIntervalMs store instanceId call
  | .working heartbeat => SoundHeartbeat heartbeatIntervalMs store instanceId heartbeat
  | .finishing heartbeat => SoundHeartbeat heartbeatIntervalMs store instanceId heartbeat

structure SoundInstance (heartbeatIntervalMs : Nat) (store : LeaseStore ι) (instanceId : ι)
    (inst : LeaseInstance ι) : Prop where
  cached : ∀ lease, inst.primaryLease = some lease →
    OwnLease heartbeatIntervalMs store instanceId lease
  phase : SoundPhase heartbeatIntervalMs store instanceId inst.phase

variable {store store' : LeaseStore ι} {instanceId : ι} {inst : LeaseInstance ι}

theorem OwnLease.later {lease : PrimaryLease ι}
    (h : OwnLease heartbeatIntervalMs store instanceId lease)
    (hlater : LaterStore heartbeatIntervalMs store store') :
    OwnLease heartbeatIntervalMs store' instanceId lease :=
  ⟨h.own,Nat.le_trans h.past hlater.now,hlater.safe lease h.safe⟩

theorem SoundCall.later {call : SwapCall ι}
    (h : SoundCall heartbeatIntervalMs store instanceId call)
    (hlater : LaterStore heartbeatIntervalMs store store') :
    SoundCall heartbeatIntervalMs store' instanceId call :=
  ⟨h.swap.later hlater,fun hanswer => (h.swapped hanswer).later hlater⟩

theorem SoundPhase.later {phase : LeasePhase ι}
    (h : SoundPhase heartbeatIntervalMs store instanceId phase)
    (hlater : LaterStore heartbeatIntervalMs store store') :
    SoundPhase heartbeatIntervalMs store' instanceId phase := by
  cases phase with
  | idle => trivial
  | reading answer => exact fun lease hlease => Nat.le_trans (h lease hlease) hlater.now
  | swapping kind call => exact SoundCall.later h hlater
  | working heartbeat => exact fun call hcall => (h call hcall).later hlater
  | finishing heartbeat => exact fun call hcall => (h call hcall).later hlater

theorem SoundInstance.later (h : SoundInstance heartbeatIntervalMs store instanceId inst)
    (hlater : LaterStore heartbeatIntervalMs store store') :
    SoundInstance heartbeatIntervalMs store' instanceId inst :=
  ⟨fun lease hlease => (h.cached lease hlease).later hlater,h.phase.later hlater⟩

theorem soundCall_new {expectedValue : PrimaryValue ι}
    (h : ∀ lease, expectedValue = .lease lease → lease.heartbeatAt ≤ store.now ∧
      (lease.instanceId = instanceId ∨ lease.heartbeatAt + heartbeatIntervalMs * 3 < store.now)) :
    SoundCall heartbeatIntervalMs store instanceId
      ⟨⟨expectedValue,createLease instanceId store.now⟩,none⟩ := by
  refine ⟨⟨rfl,Nat.le_refl _,fun lease hlease => ?_⟩,fun hanswer => (by cases hanswer)⟩
  obtain ⟨hpast,hown | hstale⟩ := h lease hlease
  · exact Or.inl ⟨hown,hpast⟩
  · exact Or.inr hstale

theorem swappedLease_own {swap : LeaseSwap ι} {swapped : Bool}
    (h : SoundCall heartbeatIntervalMs store instanceId ⟨swap,some swapped⟩)
    (lease : PrimaryLease ι) (hlease : swappedLease swap swapped = some lease) :
    OwnLease heartbeatIntervalMs store instanceId lease := by
  cases swapped with
  | false => cases hlease
  | true =>
    cases hlease
    exact h.swapped rfl

theorem SoundCall.of_abandoned {call : SwapCall ι} {swap : LeaseSwap ι}
    (h : SoundCall heartbeatIntervalMs store instanceId call) (hswap : call.abandoned = some swap) :
    SoundSwap heartbeatIntervalMs store instanceId swap := by
  unfold SwapCall.abandoned at hswap
  split at hswap
  · cases hswap
    exact h.swap
  · cases hswap

/-- The move of an instance leaves a sound store, instance and straggler. -/
structure SoundEffect (heartbeatIntervalMs : Nat) (store : LeaseStore ι) (instanceId : ι)
    (effect : LeaseEffect ι) : Prop where
  later : LaterStore heartbeatIntervalMs store effect.store
  past : PastLease effect.store
  next : SoundInstance heartbeatIntervalMs effect.store instanceId effect.next
  abandoned : ∀ swap, effect.abandoned = some swap →
    SoundSwap heartbeatIntervalMs effect.store instanceId swap

theorem soundEffect_local {next : LeaseInstance ι} (hpast : PastLease store)
    (hnext : SoundInstance heartbeatIntervalMs store instanceId next) :
    SoundEffect heartbeatIntervalMs store instanceId ⟨store,next,none⟩ :=
  ⟨laterStore_refl store,hpast,hnext,fun _ h => (by cases h)⟩

theorem leaseLeadership_sound (h : SoundInstance heartbeatIntervalMs store instanceId inst) :
    SoundInstance heartbeatIntervalMs store instanceId
      (leaseLeadership heartbeatIntervalMs store inst) := by
  unfold leaseLeadership
  split
  · exact ⟨h.cached,fun call hcall => (by cases hcall)⟩
  · exact ⟨h.cached,fun lease hlease => (by cases hlease)⟩

theorem receiveLeadership_sound {swap : LeaseSwap ι} {swapped : Bool}
    (h : SoundCall heartbeatIntervalMs store instanceId ⟨swap,some swapped⟩) :
    SoundInstance heartbeatIntervalMs store instanceId
      (receiveLeadership store.now swap swapped) := by
  cases swapped with
  | false => exact ⟨fun lease hlease => (by cases hlease),trivial⟩
  | true =>
    refine ⟨fun lease hlease => ?_,fun call hcall => (by cases hcall)⟩
    cases hlease
    exact h.swapped rfl

theorem failLeadership_sound (kind : SwapKind)
    (h : SoundInstance heartbeatIntervalMs store instanceId inst) :
    SoundInstance heartbeatIntervalMs store instanceId (failLeadership kind inst) := by
  cases kind with
  | renewPrimaryLease => exact ⟨fun lease hlease => (by cases hlease),trivial⟩
  | claimPrimaryLease => exact ⟨h.cached,trivial⟩

theorem fireHeartbeat_sound {heartbeat : Heartbeat ι}
    (h : SoundInstance heartbeatIntervalMs store instanceId inst)
    (hheartbeat : SoundHeartbeat heartbeatIntervalMs store instanceId heartbeat) :
    SoundInstance heartbeatIntervalMs store instanceId
      (fireHeartbeat instanceId store.now inst heartbeat) := by
  unfold fireHeartbeat
  split
  · exact ⟨h.cached,fun call hcall => hheartbeat call hcall⟩
  · rename_i expectedLease hcached
    have hlease := h.cached expectedLease hcached
    refine ⟨h.cached,fun call hcall => ?_⟩
    cases hcall
    refine soundCall_new (fun lease hexpected => ?_)
    cases hexpected
    exact ⟨hlease.past,Or.inl hlease.own⟩

theorem receiveHeartbeat_sound {swap : LeaseSwap ι} {swapped : Bool} (stopped : Bool)
    (h : SoundCall heartbeatIntervalMs store instanceId ⟨swap,some swapped⟩) :
    SoundInstance heartbeatIntervalMs store instanceId
      (receiveHeartbeat store.now swap swapped stopped) := by
  cases stopped <;> exact ⟨swappedLease_own h,fun call hcall => (by cases hcall)⟩

theorem failHeartbeat_sound (stopped : Bool) :
    SoundInstance heartbeatIntervalMs store instanceId (failHeartbeat stopped) := by
  cases stopped <;> exact ⟨fun lease hlease => (by cases hlease),fun call hcall => (by cases hcall)⟩

theorem assertPrimaryLease_sound (h : SoundInstance heartbeatIntervalMs store instanceId inst) :
    SoundInstance heartbeatIntervalMs store instanceId (assertPrimaryLease inst) := by
  unfold assertPrimaryLease
  split
  · rename_i heartbeat hcached hphase
    have hsound := h.phase
    rw [hphase] at hsound
    exact ⟨h.cached,fun call hcall => hsound call hcall⟩
  · exact h

variable [DecidableEq ι]

theorem carriedOut_spec {swap : LeaseSwap ι} (hpast : PastLease store)
    (h : SoundSwap heartbeatIntervalMs store instanceId swap) :
    LaterStore heartbeatIntervalMs store (SwapCall.carriedOut ⟨swap,none⟩ store).2 ∧
    PastLease (SwapCall.carriedOut ⟨swap,none⟩ store).2 ∧
    SoundCall heartbeatIntervalMs (SwapCall.carriedOut ⟨swap,none⟩ store).2 instanceId
      (SwapCall.carriedOut ⟨swap,none⟩ store).1 := by
  have hlater := compareAndSwap_later h
  refine ⟨hlater,compareAndSwap_past hpast h,h.later hlater,fun hanswer => ?_⟩
  have hswapped : (store.compareAndSwapJsonValue swap).1 = true := Option.some.inj hanswer
  exact ⟨h.own,(h.later hlater).past,compareAndSwap_safe store swap hswapped⟩

theorem receivePrimary_sound {current : PrimaryValue ι}
    (h : SoundInstance heartbeatIntervalMs store instanceId inst)
    (hcurrent : ∀ lease, current = .lease lease → lease.heartbeatAt ≤ store.now) :
    SoundInstance heartbeatIntervalMs store instanceId
      (receivePrimary heartbeatIntervalMs instanceId store.now current inst) := by
  unfold receivePrimary
  cases current with
  | null => exact ⟨h.cached,soundCall_new (fun lease hlease => (by cases hlease))⟩
  | text value => exact ⟨h.cached,soundCall_new (fun lease hlease => (by cases hlease))⟩
  | lease currentLease =>
    have hpast := hcurrent currentLease rfl
    simp only [toPrimaryLease]
    by_cases hown : currentLease.instanceId = instanceId
    · rw [if_pos hown]
      refine ⟨h.cached,soundCall_new (fun lease hlease => ?_)⟩
      cases hlease
      exact ⟨hpast,Or.inl hown⟩
    · rw [if_neg hown]
      by_cases hfresh : isFreshPrimaryLease heartbeatIntervalMs currentLease store.now = true
      · rw [if_pos hfresh]
        exact ⟨fun lease hlease => (by cases hlease),trivial⟩
      · rw [if_neg hfresh]
        refine ⟨h.cached,soundCall_new (fun lease hlease => ?_)⟩
        cases hlease
        refine ⟨hpast,Or.inr ?_⟩
        simpa [isFreshPrimaryLease] using hfresh

theorem performMove_sound {move : LeaseMove} {effect : LeaseEffect ι} (hpast : PastLease store)
    (h : SoundInstance heartbeatIntervalMs store instanceId inst)
    (hmove : performMove heartbeatIntervalMs instanceId move store inst = some effect) :
    SoundEffect heartbeatIntervalMs store instanceId effect := by
  obtain ⟨primaryLease,phase⟩ := inst
  have hphase : SoundPhase heartbeatIntervalMs store instanceId phase := h.phase
  -- a move with the swap carried out by the store
  have hcarried (next : SwapCall ι → LeasePhase ι) {swap : LeaseSwap ι}
      (hcall : SoundCall heartbeatIntervalMs store instanceId ⟨swap,none⟩)
      (hnext : ∀ store' call, SoundCall heartbeatIntervalMs store' instanceId call →
        SoundPhase heartbeatIntervalMs store' instanceId (next call)) :
      SoundEffect heartbeatIntervalMs store instanceId
        ⟨(SwapCall.carriedOut ⟨swap,none⟩ store).2,
          ⟨primaryLease,next (SwapCall.carriedOut ⟨swap,none⟩ store).1⟩,none⟩ := by
    obtain ⟨hlater,hpast',hcall'⟩ := carriedOut_spec hpast hcall.swap
    exact ⟨hlater,hpast',⟨(h.later hlater).cached,hnext _ _ hcall'⟩,fun _ h => (by cases h)⟩
  unfold performMove at hmove
  split at hmove
  case h_1 =>
    cases hmove
    exact soundEffect_local hpast (leaseLeadership_sound h)
  case h_2 =>
    cases hmove
    exact soundEffect_local hpast ⟨h.cached,fun lease hlease =>
      hpast lease (getJsonValue_lease (Option.some.inj hlease))⟩
  case h_3 _ _ current hreading =>
    cases hmove
    obtain rfl : phase = .reading (some current) := hreading
    exact soundEffect_local hpast (receivePrimary_sound h
      (fun lease hlease => hphase lease (congrArg some hlease)))
  case h_4 =>
    cases hmove
    exact soundEffect_local hpast ⟨h.cached,trivial⟩
  case h_5 _ _ kind swap hswapping =>
    cases hmove
    obtain rfl : phase = .swapping kind ⟨swap,none⟩ := hswapping
    exact hcarried (.swapping kind) hphase (fun _ _ hcall => hcall)
  case h_6 _ _ kind swap swapped hswapping =>
    cases hmove
    obtain rfl : phase = .swapping kind ⟨swap,some swapped⟩ := hswapping
    exact soundEffect_local hpast (receiveLeadership_sound hphase)
  case h_7 _ _ kind call hswapping =>
    cases hmove
    obtain rfl : phase = .swapping kind call := hswapping
    exact ⟨laterStore_refl store,hpast,failLeadership_sound kind h,
      fun swap hswap => SoundCall.of_abandoned hphase hswap⟩
  case h_8 _ _ setAt renewal hworking =>
    obtain rfl : phase = .working ⟨some setAt,renewal⟩ := hworking
    split at hmove
    · cases hmove
      exact soundEffect_local hpast (fireHeartbeat_sound h hphase)
    · cases hmove
  case h_9 _ _ timer swap hworking =>
    cases hmove
    obtain rfl : phase = .working ⟨timer,some ⟨swap,none⟩⟩ := hworking
    refine hcarried (fun call => .working ⟨timer,some call⟩) (hphase _ rfl) ?_
    intro store' call hcall _ heq
    cases heq
    exact hcall
  case h_10 _ _ timer swap hfinishing =>
    cases hmove
    obtain rfl : phase = .finishing ⟨timer,some ⟨swap,none⟩⟩ := hfinishing
    refine hcarried (fun call => .finishing ⟨timer,some call⟩) (hphase _ rfl) ?_
    intro store' call hcall _ heq
    cases heq
    exact hcall
  case h_11 _ _ timer swap swapped hworking =>
    cases hmove
    obtain rfl : phase = .working ⟨timer,some ⟨swap,some swapped⟩⟩ := hworking
    exact soundEffect_local hpast (receiveHeartbeat_sound false (hphase _ rfl))
  case h_12 _ _ timer swap swapped hfinishing =>
    cases hmove
    obtain rfl : phase = .finishing ⟨timer,some ⟨swap,some swapped⟩⟩ := hfinishing
    exact soundEffect_local hpast (receiveHeartbeat_sound true (hphase _ rfl))
  case h_13 _ _ timer call hworking =>
    cases hmove
    obtain rfl : phase = .working ⟨timer,some call⟩ := hworking
    exact ⟨laterStore_refl store,hpast,failHeartbeat_sound false,
      fun swap hswap => SoundCall.of_abandoned (hphase _ rfl) hswap⟩
  case h_14 _ _ timer call hfinishing =>
    cases hmove
    obtain rfl : phase = .finishing ⟨timer,some call⟩ := hfinishing
    exact ⟨laterStore_refl store,hpast,failHeartbeat_sound true,
      fun swap hswap => SoundCall.of_abandoned (hphase _ rfl) hswap⟩
  case h_15 =>
    cases hmove
    exact soundEffect_local hpast (assertPrimaryLease_sound h)
  case h_16 _ _ heartbeat hworking =>
    cases hmove
    obtain rfl : phase = .working heartbeat := hworking
    exact soundEffect_local hpast ⟨h.cached,fun call hcall => hphase call hcall⟩
  case h_17 =>
    cases hmove
    exact soundEffect_local hpast ⟨h.cached,trivial⟩
  case h_18 => cases hmove

end Instance

section Runs
variable {ι : Type} {heartbeatIntervalMs : Nat}

structure SoundState (heartbeatIntervalMs : Nat) (s : LeaseState ι) : Prop where
  past : PastLease s.store
  instances : ∀ i, SoundInstance heartbeatIntervalMs s.store i (s.instances i)
  stragglers : ∀ i swap, (i,swap) ∈ s.stragglers → SoundSwap heartbeatIntervalMs s.store i swap

/-- Nothing is cached or under way, and a stored lease was not written in the future. -/
structure InitialLease (s : LeaseState ι) : Prop where
  past : PastLease s.store
  instances : ∀ i, s.instances i = ⟨none,.idle⟩
  stragglers : s.stragglers = []

theorem soundState_initial {s : LeaseState ι} (h : InitialLease s) :
    SoundState heartbeatIntervalMs s := by
  refine ⟨h.past,fun i => ?_,fun i swap hmem => ?_⟩
  · rw [h.instances i]
    exact ⟨fun lease hlease => (by cases hlease),trivial⟩
  · rw [h.stragglers] at hmem
    cases hmem

/-- `assertPrimaryLease` of the instance does not throw. -/
def PassesAssert (s : LeaseState ι) (instanceId : ι) : Prop :=
  (s.instances instanceId).primaryLease ≠ none

def HeldByOther (s : LeaseState ι) (instanceId : ι) : Prop :=
  ∃ lease, s.store.primary = some (.lease lease) ∧ lease.instanceId ≠ instanceId

/-- The cached lease is not older than the age at which another instance may replace it. -/
def CachedInTime (heartbeatIntervalMs : Nat) (s : LeaseState ι) (instanceId : ι) : Prop :=
  ∀ lease, (s.instances instanceId).primaryLease = some lease →
    isFreshPrimaryLease heartbeatIntervalMs lease s.store.now

theorem not_heldByOther {s : LeaseState ι} {instanceId : ι} (h : SoundState heartbeatIntervalMs s)
    (hpasses : PassesAssert s instanceId) (htime : CachedInTime heartbeatIntervalMs s instanceId) :
    ¬HeldByOther s instanceId := by
  rintro ⟨stored,hstored,hother⟩
  obtain ⟨lease,hlease⟩ := Option.ne_none_iff_exists'.mp hpasses
  have hown := (h.instances instanceId).cached lease hlease
  have hfresh := htime lease hlease
  rcases hown.safe with hstale | ⟨held,hheld,hid,-⟩
  · unfold isFreshPrimaryLease at hfresh
    simp only [decide_eq_true_eq] at hfresh
    omega
  · rw [hstored] at hheld
    cases hheld
    exact hother (hid.trans hown.own)

variable [DecidableEq ι]

theorem soundState_withEffect {s : LeaseState ι} {instanceId : ι} {effect : LeaseEffect ι}
    (h : SoundState heartbeatIntervalMs s)
    (heffect : SoundEffect heartbeatIntervalMs s.store instanceId effect) :
    SoundState heartbeatIntervalMs (s.withEffect instanceId effect) := by
  refine ⟨heffect.past,fun i => ?_,fun i swap hmem => ?_⟩
  · unfold LeaseState.withEffect
    by_cases hi : i = instanceId
    · subst hi
      simpa using heffect.next
    · simpa [hi] using (h.instances i).later heffect.later
  · rcases List.mem_append.mp hmem with hold | hnew
    · exact (h.stragglers i swap hold).later heffect.later
    · obtain ⟨abandoned,habandoned,heq⟩ := Option.map_eq_some_iff.mp (Option.mem_toList.mp hnew)
      cases heq
      exact heffect.abandoned swap habandoned

theorem leaseStep_sound {action : LeaseAction ι} {s t : LeaseState ι}
    (h : SoundState heartbeatIntervalMs s)
    (hstep : leaseStep heartbeatIntervalMs action s = some t) :
    SoundState heartbeatIntervalMs t := by
  unfold leaseStep at hstep
  cases action with
  | tick elapsedMs =>
    cases hstep
    have hlater := laterStore_tick heartbeatIntervalMs s.store elapsedMs
    refine ⟨fun lease hlease => ?_,fun i => (h.instances i).later hlater,
      fun i swap hmem => (h.stragglers i swap hmem).later hlater⟩
    exact Nat.le_trans (h.past lease hlease) hlater.now
  | straggle index =>
    obtain ⟨⟨i,swap⟩,hget,rfl⟩ := Option.map_eq_some_iff.mp hstep
    have hsound := h.stragglers i swap (List.mem_of_getElem? hget)
    have hlater := compareAndSwap_later hsound
    exact ⟨compareAndSwap_past h.past hsound,fun j => (h.instances j).later hlater,
      fun j swap' hmem => (h.stragglers j swap' (List.mem_of_mem_eraseIdx hmem)).later hlater⟩
  | move instanceId move =>
    obtain ⟨effect,heffect,rfl⟩ := Option.map_eq_some_iff.mp hstep
    exact soundState_withEffect h (performMove_sound h.past (h.instances instanceId) heffect)

theorem leaseRun_sound {actions : List (LeaseAction ι)} {s t : LeaseState ι}
    (h : InitialLease s) (hrun : leaseRun heartbeatIntervalMs actions s = some t) :
    SoundState heartbeatIntervalMs t :=
  Machine.run_invariant (fun _ _ _ hs hstep => leaseStep_sound hs hstep) (soundState_initial h) hrun

/-- Where every check finds a cached lease in time, no check passes while another instance holds
the stored lease. -/
theorem lease_exclusion {actions : List (LeaseAction ι)} {s : LeaseState ι} (h : InitialLease s)
    (htime : ∀ passed i ahead t, actions = passed ++ .move i .assertPrimaryLease::ahead →
      leaseRun heartbeatIntervalMs passed s = some t → CachedInTime heartbeatIntervalMs t i) :
    ∀ passed i ahead t, actions = passed ++ .move i .assertPrimaryLease::ahead →
      leaseRun heartbeatIntervalMs passed s = some t → PassesAssert t i → ¬HeldByOther t i := by
  intro passed i ahead t heq hrun hpasses
  exact not_heldByOther (leaseRun_sound h hrun) hpasses (htime passed i ahead t heq hrun)

end Runs

def idleInstances : LeaseState Bool := ⟨⟨0,none⟩,fun _ => ⟨none,.idle⟩,[]⟩

theorem idleInstances_initial : InitialLease idleInstances :=
  ⟨fun _ h => (by cases h),fun _ => rfl,rfl⟩

/-- An instance reads, claims or renews, and starts its work. -/
def takeLease (instanceId : Bool) : List (LeaseAction Bool) :=
  [.move instanceId .leaseLeadership,.move instanceId .readPrimary,
    .move instanceId .receivePrimary,.move instanceId .swapLeadership,
    .move instanceId .receiveLeadership]

/-- The renewal that `false` sends after 5 s has no answer for 11 s; `true` takes the lease. -/
def hungRenewal : List (LeaseAction Bool) :=
  takeLease false ++ [.tick 5000,.move false .fireHeartbeat,.tick 11000] ++ takeLease true

theorem assert_passes_after_takeover : ∃ s,
    leaseRun 5000 hungRenewal idleInstances = some s ∧
    (s.instances false).primaryLease = some ⟨false,0⟩ ∧
    s.store.primary = some (.lease ⟨true,16000⟩) ∧
    PassesAssert s false ∧ HeldByOther s false := by
  refine ⟨_,rfl,rfl,rfl,?_,⟨true,16000⟩,rfl,by decide⟩
  intro hnone
  cases hnone

/-- After `false` has taken the absent lease. -/
def takenLease : LeaseState Bool :=
  (leaseRun 5000 (takeLease false) idleInstances).getD idleInstances

theorem lease_exclusion_takeLease : ¬HeldByOther takenLease false := by
  refine lease_exclusion idleInstances_initial (fun passed i ahead t heq hrun => ?_)
    (takeLease false) false [] takenLease rfl rfl (fun hnone => by cases hnone)
  rcases Machine.snoc_eq_append_cons heq with ⟨rfl,hi,-⟩ | ⟨rest,hrest,-⟩
  · cases hi
    cases hrun
    intro lease hlease
    cases hlease
    decide
  · have hmem : (.move i .assertPrimaryLease : LeaseAction Bool) ∈ takeLease false := by
      rw [hrest]
      simp
    cases i <;> exact absurd hmem (by decide)

end OnlyDoge
