import OnlyDoge.Mempool.Session
set_option autoImplicit false

/-! What a watch session has yielded, and what it leaves behind, at the end of any of its runs. -/

namespace OnlyDoge.MempoolSession
open MempoolAppear

/-- Before the watch has its value: the handler knows no id. -/
def Position.unwatched (position : Position) : Prop := position = .checking ∨ position = .inserting

instance (position : Position) : Decidable position.unwatched :=
  inferInstanceAs (Decidable (_ ∨ _))

/-- The session is not over: what the detector published for it waits in `appear` or on the bus. -/
structure Open (world : World) : Prop where
  position : world.session.position.over = false
  unsettled : world.session.settled = false
  quiet : ∀ event ∈ world.session.yielded, event.terminal = false
  heard : world.aborted = true ∨ world.subscribed = true
  watch : world.session.watch =
    if world.session.position.unwatched then none else some world.session.id
  absent : world.session.position = .checking → world.row = false
  unlisted : world.row = false → world.listed = false ∧ world.published = []
  appear : ∀ event, world.session.appear = some event → event ∈ world.published
  inFlight : ∀ event ∈ world.inFlight, event.watchId = world.session.id →
    event ∈ world.published
  pending : world.aborted = false → world.published ≠ [] → world.session.appear.isSome ∨
    ∃ event ∈ world.inFlight, event.watchId = world.session.id

/-- The session is over: it has yielded what it had to, and it leaves nothing behind. -/
structure Closed (world : World) : Prop where
  position : world.session.position.over = true
  once : (world.session.yielded.filter MempoolWatchSseEvent.terminal).length ≤ 1
  delivered : world.aborted = false → world.published ≠ [] →
    ∃ event ∈ world.published, publicAppearPayload event ∈ world.session.yielded
  removed : world.session.position ≠ .terminal → world.subscribed = false
  deleted : world.session.position = .withdrawing ∨ world.session.position = .ended →
    world.row = false
  watch : world.session.position = .terminal → world.session.watch.isSome

/-- The turn finds the deadline passed and no event. -/
def World.timesOut (world : World) : Prop :=
  world.aborted = false ∧ world.session.appear = none ∧ world.session.expiresAt ≤ world.now

/-- No event for the watch is still on the bus. -/
def World.quietBus (world : World) : Prop :=
  ∀ event ∈ world.inFlight, event.watchId ≠ world.session.id

/-- Unless the client has aborted, no event for the watch arrives before the insert returns, the
deadline passes while none is on the bus, the change is announced or nothing was published, and
the bus of the process stays connected; a failed insert and a failed delete leave no row. -/
def Undisturbed : Action → World → Prop
  | .insertFails,world => world.row = false
  | .deleteFails,world => world.row = false
  | .announced false,world => world.aborted = true ∨ world.published = []
  | .arrive,world => world.aborted = true ∨ (world.session.position = .inserting →
      ∀ event ∈ world.inFlight.head?, event.watchId ≠ world.session.id)
  | .pull,world => world.session.position = .connected → world.timesOut → world.quietBus
  | .wake,world => world.timesOut → world.quietBus
  | .disconnect,world => world.aborted = true ∨ world.session.position.over = true
  | _,_ => True

/-- The steps that are possible, each with the state after it. -/
inductive Taken (world : World) : Action → World → Prop where
  | tick (ms : Nat) : Taken world (.tick ms) { world with now := world.now + ms }
  | abort (hopen : world.session.position.over = false) :
      Taken world .abort { world with aborted := true }
  | unchecked (h : world.session.position = .checking) :
      Taken world (.checked none) (world.fail .failedCall)
  | available (h : world.session.position = .checking)
      (status : Option MempoolWatchDetectorStatus) :
      Taken world (.checked (some status)) (world.moveTo .inserting)
  | unavailable (h : world.session.position = .checking)
      (status : Option MempoolWatchDetectorStatus) (error : SessionError) :
      Taken world (.checked (some status)) (world.fail error)
  | insertCommits (h : world.session.position = .inserting) :
      Taken world .insertCommits { world with row := true }
  | insertReturns (h : world.session.position = .inserting) (hrow : world.row = true) :
      Taken world .insertReturns { world with session :=
        { world.session with position := .announcing,watch := some world.session.id } }
  | insertFails (h : world.session.position = .inserting) :
      Taken world .insertFails (world.fail .failedCall)
  | announced (h : world.session.position = .announcing) :
      Taken world (.announced true) (world.yield (.comment "connected") .connected)
  | unannounced (h : world.session.position = .announcing) :
      Taken world (.announced false) (world.fail .failedCall)
  | start (h : world.session.position = .connected) : Taken world .pull world.setHeartbeat.turn
  | beat (h : world.session.position = .heartbeat) :
      Taken world .pull (world.setHeartbeat.moveTo .sleeping)
  | finish (h : world.session.position = .terminal) : Taken world .pull world.leave
  | stop (h : world.session.position = .connected ∨ world.session.position = .heartbeat) :
      Taken world .stop { world with aborted := true }.leave
  | stopTerminal (h : world.session.position = .terminal) : Taken world .stop world.leave
  | wake (h : world.session.position = .sleeping) : Taken world .wake world.turn
  | deleteCommits (h : world.session.position = .deleting) :
      Taken world .deleteCommits { world with row := false }
  | deleteReturns (h : world.session.position = .deleting) (hrow : world.row = false) :
      Taken world .deleteReturns (world.moveTo .withdrawing)
  | deleteFails (h : world.session.position = .deleting) :
      Taken world .deleteFails { world with session :=
        { world.session with position := .ended,thrown := some .failedCall } }
  | withdrawn (h : world.session.position = .withdrawing) (succeeds : Bool)
      (thrown : Option SessionError) :
      Taken world (.withdrawn succeeds) { world with session :=
        { world.session with position := .ended,thrown } }
  | refresh : Taken world .refresh { world with listed := world.row }
  | publishOther (event : MempoolAppearEvent) (hother : event.watchId ≠ world.session.id) :
      Taken world (.publish event) { world with inFlight := world.inFlight ++ [event] }
  | publishOwn (event : MempoolAppearEvent) (hown : event.watchId = world.session.id)
      (hlisted : world.listed = true) :
      Taken world (.publish event) { world with
        inFlight := world.inFlight ++ [event]
        published := if world.session.position.over then world.published
          else world.published ++ [event] }
  | arrive (event : MempoolAppearEvent) (rest : List MempoolAppearEvent)
      (hflight : world.inFlight = event::rest) :
      Taken world .arrive ({ world with inFlight := rest }.handleAppear event)
  | disconnect : Taken world .disconnect { world with subscribed := false,inFlight := [] }

theorem taken_of_step {action : Action} {world after : World}
    (hstep : step action world = some after) : Taken world action after := by
  unfold step at hstep
  split at hstep
  · cases hstep
    exact .tick _
  · split at hstep <;> cases hstep
    rename_i hopen
    exact .abort (Bool.eq_false_of_not_eq_true hopen)
  · cases hstep
    exact .unchecked ‹_›
  · split at hstep <;> cases hstep
    · exact .available ‹_› _
    · exact .unavailable ‹_› _ _
  · split at hstep <;> cases hstep
    exact .insertCommits ‹_›
  · split at hstep <;> cases hstep
    exact .insertReturns ‹_› ‹_›
  · cases hstep
    exact .insertFails ‹_›
  · rename_i succeeds hposition
    cases succeeds <;> cases hstep
    · exact .unannounced hposition
    · exact .announced hposition
  · cases hstep
    exact .start ‹_›
  · cases hstep
    exact .beat ‹_›
  · cases hstep
    exact .finish ‹_›
  · cases hstep
    exact .stop (Or.inl ‹_›)
  · cases hstep
    exact .stop (Or.inr ‹_›)
  · cases hstep
    exact .stopTerminal ‹_›
  · cases hstep
    exact .wake ‹_›
  · split at hstep <;> cases hstep
    exact .deleteCommits ‹_›
  · split at hstep <;> cases hstep
    rename_i hrow
    exact .deleteReturns ‹_› (Bool.eq_false_of_not_eq_true hrow)
  · cases hstep
    exact .deleteFails ‹_›
  · cases hstep
    exact .withdrawn ‹_› _ _
  · cases hstep
    exact .refresh
  · split at hstep
    · cases hstep
      exact .publishOther _ ‹_›
    · rename_i hown
      split at hstep <;> cases hstep
      exact .publishOwn _ (not_not.mp hown) ‹_›
  · split at hstep <;> cases hstep
    exact .arrive _ _ ‹_›
  · cases hstep
    exact .disconnect
  · cases hstep

section Steps
variable {world after : World}

theorem filter_terminal_eq_nil {events : List MempoolWatchSseEvent}
    (h : ∀ event ∈ events, event.terminal = false) :
    events.filter MempoolWatchSseEvent.terminal = [] :=
  List.filter_eq_nil_iff.mpr fun event hevent => by simp [h event hevent]

/-- A session that is over without a terminal event: the client left, or there was none to yield. -/
theorem Open.leave (h : Open world) (hquiet : world.aborted = true ∨ world.published = [])
    (hrow : world.session.position.unwatched → world.row = false) : Closed world.leave := by
  have hwatch := h.watch
  have honce : (world.session.yielded.filter MempoolWatchSseEvent.terminal).length ≤ 1 := by
    simp [filter_terminal_eq_nil h.quiet]
  have hdelivered : world.aborted = false → world.published ≠ [] →
      ∃ event ∈ world.published, publicAppearPayload event ∈ world.session.yielded := by
    intro hpresent hpublished
    rcases hquiet with haborted | hnone
    · rw [hpresent] at haborted
      cases haborted
    · exact absurd hnone hpublished
  by_cases hunwatched : world.session.position.unwatched
  · rw [if_pos hunwatched] at hwatch
    refine ⟨?_,honce,hdelivered,fun _ => rfl,fun _ => hrow hunwatched,?_⟩
    · simp [World.leave,hwatch,Position.over]
    · simp [World.leave,hwatch]
  · rw [if_neg hunwatched] at hwatch
    refine ⟨?_,honce,hdelivered,fun _ => rfl,?_,?_⟩
    · simp [World.leave,hwatch,Position.over]
    · simp [World.leave,hwatch]
    · simp [World.leave,hwatch]

theorem Closed.leave (h : Closed world) (hterminal : world.session.position = .terminal) :
    Closed world.leave := by
  have hwatch := h.watch hterminal
  constructor
  · simp [World.leave,hwatch,Position.over]
  · exact h.once
  · exact h.delivered
  · exact fun _ => rfl
  · simp [World.leave,hwatch]
  · simp [World.leave,hwatch]

theorem Open.terminal (h : Open world) {event : MempoolWatchSseEvent} (settled : Bool)
    (hwatch : world.session.watch.isSome)
    (hdelivered : world.aborted = false → world.published ≠ [] →
      ∃ appeared ∈ world.published, publicAppearPayload appeared = event) :
    Closed { world with session := { world.session with
      settled,position := .terminal,yielded := world.session.yielded ++ [event] } } := by
  constructor
  · rfl
  · rw [List.filter_append,filter_terminal_eq_nil h.quiet,List.nil_append]
    exact List.length_filter_le _ _
  · intro hpresent hpublished
    obtain ⟨appeared,hmem,rfl⟩ := hdelivered hpresent hpublished
    exact ⟨appeared,hmem,List.mem_append_right _ (List.mem_singleton_self _)⟩
  · intro hposition
    exact absurd rfl hposition
  · rintro (hposition | hposition) <;> cases hposition
  · exact fun _ => hwatch

theorem Open.comment (h : Open world) {position : Position} (text : List String)
    (hover : position.over = false) (hfrom : ¬ world.session.position.unwatched)
    (hto : ¬ position.unwatched) :
    Open { world with session := { world.session with
      position,yielded := world.session.yielded ++ text.map .comment } } := by
  have hwatch := h.watch
  rw [if_neg hfrom] at hwatch
  refine ⟨hover,h.unsettled,?_,h.heard,?_,?_,h.unlisted,h.appear,h.inFlight,h.pending⟩
  · intro event hevent
    rcases List.mem_append.mp hevent with hold | hnew
    · exact h.quiet event hold
    · obtain ⟨data,-,rfl⟩ := List.mem_map.mp hnew
      rfl
  · rw [if_neg hto]
    exact hwatch
  · intro hposition
    exact absurd (Or.inl hposition) hto

theorem Open.turn (h : Open world) (hwatched : ¬ world.session.position.unwatched)
    (hdeadline : world.timesOut → world.quietBus) : Open world.turn ∨ Closed world.turn := by
  have hwatch : world.session.watch.isSome := by rw [h.watch,if_neg hwatched]; rfl
  unfold World.turn
  rw [h.unsettled]
  cases haborted : world.aborted with
  | true =>
    exact Or.inr (h.terminal world.session.settled hwatch fun hpresent =>
      absurd haborted (by simp [hpresent]))
  | false =>
    cases happear : world.session.appear with
    | some event =>
      exact Or.inr (h.terminal true hwatch fun _ _ => ⟨event,h.appear event happear,rfl⟩)
    | none =>
      by_cases hpassed : world.now ≥ world.session.expiresAt
      · simp only [hpassed,if_true]
        refine Or.inr (h.terminal true hwatch fun _ hpublished => ?_)
        have hquiet := hdeadline ⟨haborted,happear,hpassed⟩
        rcases h.pending haborted hpublished with hsome | ⟨event,hmem,hown⟩
        · rw [happear] at hsome
          cases hsome
        · exact absurd hown (hquiet event hmem)
      · simp only [hpassed,if_false]
        by_cases hbeat : world.now ≥ world.session.nextHeartbeatAt
        · simp only [hbeat,if_true]
          exact Or.inl (h.comment ["heartbeat"] rfl hwatched (by simp [Position.unwatched]))
        · simp only [hbeat,if_false]
          have hsleep := @Open.comment _ h .sleeping [] rfl hwatched
            (by simp [Position.unwatched])
          simp only [List.map_nil,List.append_nil] at hsleep
          exact Or.inl hsleep

theorem Open.fail (h : Open world) (error : SessionError)
    (hquiet : world.aborted = true ∨ world.published = [])
    (hrow : world.session.position.unwatched → world.row = false) : Closed (world.fail error) := by
  have hthrown : Open { world with session := { world.session with thrown := some error } } :=
    ⟨h.position,h.unsettled,h.quiet,h.heard,h.watch,h.absent,h.unlisted,h.appear,h.inFlight,
      h.pending⟩
  exact hthrown.leave hquiet hrow

theorem Open.insertReturns (h : Open world) : Open { world with session :=
    { world.session with position := .announcing,watch := some world.session.id } } :=
  ⟨rfl,h.unsettled,h.quiet,h.heard,rfl,(fun hp => by cases hp),h.unlisted,h.appear,h.inFlight,
    h.pending⟩

theorem Open.setHeartbeat (h : Open world) : Open world.setHeartbeat :=
  ⟨h.position,h.unsettled,h.quiet,h.heard,h.watch,h.absent,h.unlisted,h.appear,h.inFlight,h.pending⟩

theorem Open.publishOther (h : Open world) {event : MempoolAppearEvent}
    (hother : event.watchId ≠ world.session.id) :
    Open { world with inFlight := world.inFlight ++ [event] } := by
  refine ⟨h.position,h.unsettled,h.quiet,h.heard,h.watch,h.absent,h.unlisted,h.appear,?_,?_⟩
  · intro candidate hmem hown
    rcases List.mem_append.mp hmem with hold | hnew
    · exact h.inFlight candidate hold hown
    · obtain rfl := List.mem_singleton.mp hnew
      exact absurd hown hother
  · intro hpresent hpublished
    exact (h.pending hpresent hpublished).imp_right fun ⟨candidate,hmem,hown⟩ =>
      ⟨candidate,List.mem_append_left _ hmem,hown⟩

theorem Open.publishOwn (h : Open world) {event : MempoolAppearEvent}
    (hown : event.watchId = world.session.id) (hlisted : world.listed = true) :
    Open { world with
      inFlight := world.inFlight ++ [event]
      published := world.published ++ [event] } := by
  refine ⟨h.position,h.unsettled,h.quiet,h.heard,h.watch,h.absent,?_,?_,?_,?_⟩
  · intro hrow
    have hunlisted := (h.unlisted hrow).1
    rw [hlisted] at hunlisted
    cases hunlisted
  · intro candidate happear
    exact List.mem_append_left _ (h.appear candidate happear)
  · intro candidate hmem hcandidate
    rcases List.mem_append.mp hmem with hold | hnew
    · exact List.mem_append_left _ (h.inFlight candidate hold hcandidate)
    · exact List.mem_append_right _ hnew
  · intro _ _
    exact Or.inr ⟨event,List.mem_append_right _ (List.mem_singleton_self _),hown⟩

/-- An event that arrives is kept when it is for the watch, and otherwise it was not waited for. -/
theorem Open.arrive (h : Open world) (hundisturbed : Undisturbed .arrive world)
    {event : MempoolAppearEvent} {rest : List MempoolAppearEvent}
    (hflight : world.inFlight = event::rest) :
    Open ({ world with inFlight := rest }.handleAppear event) := by
  have hinFlight : ∀ candidate ∈ rest, candidate.watchId = world.session.id →
      candidate ∈ world.published :=
    fun candidate hmem => h.inFlight candidate (by rw [hflight]; exact List.mem_cons_of_mem _ hmem)
  -- What still waits when the event is not taken: it was not for the watch.
  have hskip (hskipped : world.aborted = true ∨ event.watchId ≠ world.session.id) :
      Open { world with inFlight := rest } := by
    refine ⟨h.position,h.unsettled,h.quiet,h.heard,h.watch,h.absent,h.unlisted,h.appear,hinFlight,
      ?_⟩
    intro hpresent hpublished
    rcases h.pending hpresent hpublished with happear | ⟨candidate,hmem,hown⟩
    · exact Or.inl happear
    · rw [hflight] at hmem
      rcases List.mem_cons.mp hmem with rfl | hrest
      · rcases hskipped with haborted | hother
        · rw [show world.aborted = false from hpresent] at haborted
          cases haborted
        · exact absurd hown hother
      · exact Or.inr ⟨candidate,hrest,hown⟩
  unfold World.handleAppear
  split
  · rename_i hdeaf
    refine hskip (Or.inl (h.heard.resolve_right fun hsubscribed => ?_))
    rw [show world.subscribed = false from hdeaf] at hsubscribed
    cases hsubscribed
  · split
    · rename_i hignored
      have hother : some event.watchId ≠ world.session.watch :=
        hignored.resolve_right (by simp [h.unsettled])
      apply hskip
      by_cases hun : world.session.position.unwatched
      · rcases hun with hchecking | hinserting
        · refine Or.inr fun hown => ?_
          have hnone := (h.unlisted (h.absent hchecking)).2
          have hmem := h.inFlight event (by rw [hflight]; exact List.mem_cons_self) hown
          rw [hnone] at hmem
          cases hmem
        · exact hundisturbed.imp_right fun hevents =>
            hevents hinserting event (by rw [hflight]; rfl)
      · rw [h.watch,if_neg hun] at hother
        exact Or.inr fun hown => hother (by rw [hown])
    · rename_i hkept
      have htaken : some event.watchId = world.session.watch := by
        by_contra hother
        exact hkept (Or.inl hother)
      have hwatched : ¬ world.session.position.unwatched := by
        intro hun
        rw [h.watch,if_pos hun] at htaken
        cases htaken
      have hown : event.watchId = world.session.id := by
        rw [h.watch,if_neg hwatched] at htaken
        exact Option.some.inj htaken
      have hpublished := h.inFlight event (by rw [hflight]; exact List.mem_cons_self) hown
      refine ⟨h.position,h.unsettled,h.quiet,h.heard,h.watch,h.absent,h.unlisted,?_,hinFlight,
        fun _ _ => Or.inl rfl⟩
      intro candidate hcandidate
      rw [← Option.some.inj hcandidate]
      exact hpublished

theorem Open.step {action : Action} (h : Open world) (hundisturbed : Undisturbed action world)
    (hstep : step action world = some after) : Open after ∨ Closed after := by
  have hopen := h.position
  have hclosed {position : Position} (hposition : world.session.position = position)
      (hover : position.over = true) : Open after ∨ Closed after := by
    rw [hposition,hover] at hopen
    cases hopen
  cases taken_of_step hstep with
  | tick ms =>
    exact Or.inl ⟨h.position,h.unsettled,h.quiet,h.heard,h.watch,h.absent,h.unlisted,h.appear,
      h.inFlight,h.pending⟩
  | abort =>
    exact Or.inl ⟨h.position,h.unsettled,h.quiet,Or.inl rfl,h.watch,h.absent,h.unlisted,h.appear,
      h.inFlight,fun hpresent => by cases hpresent⟩
  | unchecked hposition =>
    have hrow := h.absent hposition
    exact Or.inr (h.fail _ (Or.inr (h.unlisted hrow).2) fun _ => hrow)
  | available hposition status =>
    have hwatch : world.session.watch = none := by
      rw [h.watch,hposition]
      rfl
    exact Or.inl ⟨rfl,h.unsettled,h.quiet,h.heard,hwatch,(fun hp => by cases hp),h.unlisted,
      h.appear,h.inFlight,h.pending⟩
  | unavailable hposition status error =>
    have hrow := h.absent hposition
    exact Or.inr (h.fail _ (Or.inr (h.unlisted hrow).2) fun _ => hrow)
  | insertCommits hposition =>
    refine Or.inl ⟨h.position,h.unsettled,h.quiet,h.heard,h.watch,?_,?_,h.appear,h.inFlight,
      h.pending⟩
    · intro hchecking
      rw [show world.session.position = .checking from hchecking] at hposition
      cases hposition
    · intro hrow
      cases hrow
  | insertReturns => exact Or.inl h.insertReturns
  | insertFails =>
    have hrow : world.row = false := hundisturbed
    exact Or.inr (h.fail _ (Or.inr (h.unlisted hrow).2) fun _ => hrow)
  | announced hposition =>
    exact Or.inl (h.comment ["connected"] rfl (by rw [hposition]; decide) (by decide))
  | unannounced hposition =>
    exact Or.inr (h.fail _ hundisturbed fun hun => absurd hun (by rw [hposition]; decide))
  | start hposition =>
    exact h.setHeartbeat.turn (by simp [World.setHeartbeat,hposition,Position.unwatched])
      (hundisturbed hposition)
  | beat hposition =>
    have hsleep := @Open.comment _ h.setHeartbeat .sleeping [] rfl
      (by simp [World.setHeartbeat,hposition,Position.unwatched]) (by decide)
    simp only [List.map_nil,List.append_nil] at hsleep
    exact Or.inl hsleep
  | finish hposition | stopTerminal hposition => exact hclosed hposition rfl
  | stop hposition =>
    have haborted : Open { world with aborted := true } :=
      ⟨h.position,h.unsettled,h.quiet,Or.inl rfl,h.watch,h.absent,h.unlisted,h.appear,h.inFlight,
        fun hpresent => by cases hpresent⟩
    have hwatched : ¬ world.session.position.unwatched := by
      rcases hposition with hposition | hposition <;> rw [hposition] <;> decide
    exact Or.inr (haborted.leave (Or.inl rfl) fun hun => absurd hun hwatched)
  | wake hposition => exact h.turn (by simp [hposition,Position.unwatched]) hundisturbed
  | deleteCommits hposition | deleteReturns hposition | deleteFails hposition =>
    exact hclosed hposition rfl
  | withdrawn hposition => exact hclosed hposition rfl
  | refresh =>
    refine Or.inl ⟨h.position,h.unsettled,h.quiet,h.heard,h.watch,h.absent,fun hrow => ?_,h.appear,
      h.inFlight,h.pending⟩
    exact ⟨hrow,(h.unlisted hrow).2⟩
  | publishOther event hother => exact Or.inl (h.publishOther hother)
  | publishOwn event hown hlisted =>
    simp only [h.position,Bool.false_eq_true,if_false]
    exact Or.inl (h.publishOwn hown hlisted)
  | arrive event rest hflight => exact Or.inl (h.arrive hundisturbed hflight)
  | disconnect =>
    have haborted : world.aborted = true :=
      hundisturbed.resolve_right (by rw [h.position]; exact Bool.false_ne_true)
    refine Or.inl ⟨h.position,h.unsettled,h.quiet,Or.inl haborted,h.watch,h.absent,h.unlisted,
      h.appear,?_,?_⟩
    · intro event hmem
      cases hmem
    · intro hpresent
      rw [show world.aborted = false from hpresent] at haborted
      cases haborted

theorem Closed.step {action : Action} (h : Closed world) (hundisturbed : Undisturbed action world)
    (hstep : step action world = some after) : Closed after := by
  have hover := h.position
  have hopen {position : Position} (hposition : world.session.position = position)
      (hrunning : position.over = false) : Closed after := by
    rw [hposition,hrunning] at hover
    cases hover
  cases taken_of_step hstep with
  | tick ms => exact ⟨h.position,h.once,h.delivered,h.removed,h.deleted,h.watch⟩
  | abort hrunning =>
    rw [hrunning] at hover
    cases hover
  | unchecked hposition | available hposition | unavailable hposition => exact hopen hposition rfl
  | insertCommits hposition | insertReturns hposition | insertFails hposition =>
    exact hopen hposition rfl
  | announced hposition | unannounced hposition | start hposition => exact hopen hposition rfl
  | beat hposition | wake hposition => exact hopen hposition rfl
  | finish hposition | stopTerminal hposition => exact h.leave hposition
  | stop hposition =>
    rcases hposition with hposition | hposition
    · exact hopen hposition rfl
    · exact hopen hposition rfl
  | deleteCommits => exact ⟨h.position,h.once,h.delivered,h.removed,fun _ => rfl,h.watch⟩
  | deleteReturns hposition hrow =>
    have hremoved := h.removed (by rw [hposition]; decide)
    exact ⟨rfl,h.once,h.delivered,fun _ => hremoved,fun _ => hrow,fun hp => by cases hp⟩
  | deleteFails hposition =>
    have hremoved := h.removed (by rw [hposition]; decide)
    exact ⟨rfl,h.once,h.delivered,fun _ => hremoved,fun _ => hundisturbed,fun hp => by cases hp⟩
  | withdrawn hposition =>
    have hremoved := h.removed (by rw [hposition]; decide)
    have hdeleted := h.deleted (Or.inl hposition)
    exact ⟨rfl,h.once,h.delivered,fun _ => hremoved,fun _ => hdeleted,fun hp => by cases hp⟩
  | refresh => exact ⟨h.position,h.once,h.delivered,h.removed,h.deleted,h.watch⟩
  | publishOther => exact ⟨h.position,h.once,h.delivered,h.removed,h.deleted,h.watch⟩
  | publishOwn =>
    simp only [h.position,if_true]
    exact ⟨h.position,h.once,h.delivered,h.removed,h.deleted,h.watch⟩
  | arrive =>
    unfold World.handleAppear
    split
    · exact ⟨h.position,h.once,h.delivered,h.removed,h.deleted,h.watch⟩
    · split <;> exact ⟨h.position,h.once,h.delivered,h.removed,h.deleted,h.watch⟩
  | disconnect => exact ⟨h.position,h.once,h.delivered,fun _ => rfl,h.deleted,h.watch⟩

end Steps

theorem open_openedWorld {session : Session} {address apiKeyId id : String}
    {minValueBase : Option String} {createdAtMs : Nat}
    (h : openedSession address apiKeyId minValueBase id createdAtMs = .ok session) :
    Open (openedWorld session) := by
  unfold openedSession at h
  cases haddress : normalizeWatchAddress address with
  | error error =>
    rw [haddress] at h
    cases h
  | ok normalized =>
  cases hleast : normalizeMinValueBase minValueBase with
  | error error =>
    rw [haddress,hleast] at h
    cases h
  | ok least =>
  rw [haddress,hleast] at h
  cases h
  exact ⟨rfl,rfl,by simp [openedWorld],Or.inr rfl,rfl,fun _ => rfl,fun _ => ⟨rfl,rfl⟩,
    by simp [openedWorld],by simp [openedWorld],by simp [openedWorld]⟩

/-- In a run without disturbance a session yields at most one terminal event, which is an event
published for its watch when there is one by then and the client has not aborted; it ends without
a row and without a subscription. -/
theorem session_delivers {session : Session} {address apiKeyId id : String}
    {minValueBase : Option String} {createdAtMs : Nat} {actions : List Action} {world : World}
    (hopened : openedSession address apiKeyId minValueBase id createdAtMs = .ok session)
    (hundisturbed : Machine.Along step Undisturbed actions (openedWorld session))
    (hrun : Machine.run step actions (openedWorld session) = some world) :
    (world.session.yielded.filter MempoolWatchSseEvent.terminal).length ≤ 1 ∧
      (world.session.position.over = true → world.aborted = false → world.published ≠ [] →
        ∃ event ∈ world.published, publicAppearPayload event ∈ world.session.yielded) ∧
      (world.session.position = .ended → world.row = false ∧ world.subscribed = false) := by
  have hworld : Open world ∨ Closed world := by
    refine Machine.run_invariant_of (I := fun world => Open world ∨ Closed world) ?_
      (Or.inl (open_openedWorld hopened)) hundisturbed.split hrun
    rintro action before after (hopen | hclosed) hcondition hstep
    · exact hopen.step hcondition hstep
    · exact Or.inr (hclosed.step hcondition hstep)
  rcases hworld with hopen | hclosed
  · refine ⟨by simp [filter_terminal_eq_nil hopen.quiet],?_,?_⟩
    · intro hover
      rw [hopen.position] at hover
      cases hover
    · intro hended
      have hrunning := hopen.position
      rw [hended] at hrunning
      cases hrunning
  · refine ⟨hclosed.once,fun _ => hclosed.delivered,fun hended => ?_⟩
    exact ⟨hclosed.deleted (Or.inr hended),hclosed.removed (by rw [hended]; decide)⟩

def sampleEvent : MempoolAppearEvent := ⟨"alice","key",[⟨100,0⟩],.catchup,"payment","mw"⟩

def sampleSession : Session :=
  ⟨"alice","key",none,0,"mw",.checking,none,none,false,0,[],none⟩

def sampleEnd : List Action := [.pull,.deleteCommits,.deleteReturns,.withdrawn true]

/-- The detector lists the row as soon as it is committed, and its event finds no watch yet: the
session waits for its five minutes. -/
theorem event_dropped_before_insert_returns :
    ∃ world, openedSession " alice " "key" none "mw" 0 = .ok sampleSession ∧
      Machine.run step ([.checked (some none),.insertCommits,.refresh,.publish sampleEvent,.arrive,
        .insertReturns,.announced true,.pull,.tick 300000,.wake] ++ sampleEnd)
        (openedWorld sampleSession) = some world ∧
      world.aborted = false ∧ world.published = [sampleEvent] ∧ world.inFlight = [] ∧
      world.session.position = .ended ∧ world.session.thrown = none ∧
      world.session.yielded = [.comment "connected",.timeout "alice" 300000] := by
  refine ⟨_,by decide +kernel,rfl,rfl,rfl,rfl,rfl,rfl,rfl⟩

/-- An event that arrives after the change was announced is yielded. -/
theorem session_delivers_announced :
    ∃ world, Machine.run step ([.checked (some none),.insertCommits,.insertReturns,.announced true,
        .refresh,.publish sampleEvent,.pull,.arrive,.wake] ++ sampleEnd)
        (openedWorld sampleSession) = some world ∧
      (world.session.yielded.filter MempoolWatchSseEvent.terminal).length ≤ 1 ∧
      (world.session.position.over = true → world.aborted = false → world.published ≠ [] →
        ∃ event ∈ world.published, publicAppearPayload event ∈ world.session.yielded) ∧
      (world.session.position = .ended → world.row = false ∧ world.subscribed = false) := by
  obtain ⟨world,hrun⟩ : ∃ world, Machine.run step ([.checked (some none),.insertCommits,
      .insertReturns,.announced true,.refresh,.publish sampleEvent,.pull,.arrive,
        .wake] ++ sampleEnd)
      (openedWorld sampleSession) = some world := ⟨_,rfl⟩
  have hopened : openedSession " alice " "key" none "mw" 0 = .ok sampleSession := by
    decide +kernel
  refine ⟨world,hrun,session_delivers hopened ?_ hrun⟩
  have hchanged : Undisturbed (.announced true) ⟨{ sampleSession with
      position := .announcing,watch := some "mw" },0,false,true,true,false,[],[]⟩ := trivial
  refine .cons rfl trivial (.cons rfl trivial (.cons rfl trivial (.cons rfl hchanged
    (.cons rfl trivial (.cons rfl trivial (.cons rfl ?_ (.cons rfl ?_ (.cons rfl ?_
    (.cons rfl ?_ (.cons rfl trivial (.cons rfl trivial (.cons rfl trivial trivial))))))))))))
  · exact fun _ htimes => absurd htimes.2.2 (by decide)
  · exact Or.inr fun hposition => by cases hposition
  · exact fun htimes => by cases htimes.2.1
  · exact fun hposition => by cases hposition

end OnlyDoge.MempoolSession
