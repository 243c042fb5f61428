import OnlyDoge.Node.RpcPacing
import OnlyDoge.Library.Spacing
import Mathlib.Data.List.Chain
import Mathlib.Data.List.Perm.Subperm
import Mathlib.Tactic.Linarith
set_option autoImplicit false

/-! The order and the distance of the requests to an endpoint, and the retries of a call. -/

namespace OnlyDoge.Node
open Interleaving

variable {ι : Type} {calls : ι → GatewayCall}

def askedFor (calls : ι → GatewayCall) (url : String) (store : GatewayStore ι) : List (Ticket ι) :=
  store.asked.filter fun ticket => (calls ticket.call).url = url

def grantedFor (calls : ι → GatewayCall) (url : String) (store : GatewayStore ι) :
    List (Granted ι) :=
  store.granted.filter fun granted => (calls granted.ticket.call).url = url

/-- The attempt stands between its question for a slot and its turn. -/
def Stands : RpcProgress ι → Nat → Prop
  | .chained attempt _,n => attempt = n
  | .sleeping attempt _ _,n => attempt = n
  | _,_ => False

/-- `later` waits for the promise of `ticket`. -/
def WaitsFor (progress : ι → RpcProgress ι) (ticket later : Ticket ι) : Prop :=
  progress later.call = .chained later.attempt (some ticket)

/-- The queue of an endpoint: those that have asked and have not had their turn stand in line, each
of them behind the one before, and the last of them is who the next one will wait for. -/
structure Lined (calls : ι → GatewayCall) (url : String) (s : Gateway ι) (line : List (Ticket ι)) :
    Prop where
  asked : askedFor calls url s.store = (grantedFor calls url s.store).map (·.ticket) ++ line
  nodup : (askedFor calls url s.store).Nodup
  stands : ∀ ticket, ticket ∈ line ↔
    (calls ticket.call).url = url ∧ Stands (s.progress ticket.call) ticket.attempt
  last : line ≠ [] → s.store.rateLimitQueues url = line.getLast?
  free : line = [] → ∀ ticket ∈ s.store.rateLimitQueues url, s.store.Settled ticket
  first : ∀ ticket ∈ line.head?, ∀ previous, WaitsFor s.progress previous ticket →
    s.store.Settled previous
  chain : line.IsChain (WaitsFor s.progress)
  limited : ∀ ticket ∈ line, shouldRateLimit (calls ticket.call).rps

/-- How many attempts a call has begun. -/
def begun : RpcProgress ι → Nat
  | .entering attempt => attempt
  | .chained attempt _ => attempt + 1
  | .sleeping attempt _ _ => attempt + 1
  | .released attempt => attempt + 1
  | .requesting attempt => attempt + 1
  | .backingOff attempt _ => attempt + 1
  | .finished _ => rpcRetryAttempts

/-- A call that goes on has an attempt left. -/
def HasAttempt : RpcProgress ι → Prop
  | .entering attempt => attempt < rpcRetryAttempts
  | .backingOff attempt _ => attempt + 1 < rpcRetryAttempts
  | progress => begun progress ≤ rpcRetryAttempts

/-- The attempts of a call are numbered, and those that have asked are among those begun. -/
structure Numbered (s : Gateway ι) : Prop where
  attempts : ∀ i, HasAttempt (s.progress i)
  asked : ∀ ticket ∈ s.store.asked, ticket.attempt < begun (s.progress ticket.call)

variable {url : String} {s t : Gateway ι} {line : List (Ticket ι)}

theorem Lined.frame (h : Lined calls url s line)
    (hasked : askedFor calls url t.store = askedFor calls url s.store)
    (hgranted : grantedFor calls url t.store = grantedFor calls url s.store)
    (hsettled : ∀ ticket, s.store.Settled ticket → t.store.Settled ticket)
    (hlast : line ≠ [] → t.store.rateLimitQueues url = s.store.rateLimitQueues url)
    (hfree : line = [] → ∀ ticket ∈ t.store.rateLimitQueues url, t.store.Settled ticket)
    (hprogress : ∀ j, (calls j).url = url → t.progress j = s.progress j ∨
      (∀ n, ¬Stands (s.progress j) n) ∧ ∀ n, ¬Stands (t.progress j) n) :
    Lined calls url t line := by
  have hsame : ∀ ticket ∈ line, t.progress ticket.call = s.progress ticket.call := by
    intro ticket hticket
    obtain ⟨hurl,hstands⟩ := (h.stands ticket).mp hticket
    rcases hprogress ticket.call hurl with hsame | ⟨hnot,-⟩
    · exact hsame
    · exact absurd hstands (hnot _)
  refine ⟨by rw [hasked,hgranted]; exact h.asked,by rw [hasked]; exact h.nodup,?_,?_,hfree,?_,?_,
    h.limited⟩
  · intro ticket
    rw [h.stands]
    refine and_congr_right fun hurl => ?_
    rcases hprogress ticket.call hurl with hsame | ⟨hnot,hnot'⟩
    · rw [hsame]
    · exact iff_of_false (hnot _) (hnot' _)
  · intro hne
    rw [hlast hne]
    exact h.last hne
  · intro ticket hticket previous hwaits
    refine hsettled previous (h.first ticket hticket previous ?_)
    unfold WaitsFor at hwaits ⊢
    rwa [← hsame ticket (List.mem_of_mem_head? hticket)]
  · refine List.IsChain.imp_of_mem_tail_imp (fun a b _ hb hwaits => ?_) h.chain
    unfold WaitsFor at hwaits ⊢
    rwa [hsame b (List.mem_of_mem_tail hb)]

theorem Lined.unsettled (h : Lined calls url s line) {ticket : Ticket ι} (hticket : ticket ∈ line) :
    ¬s.store.Settled ticket := by
  rintro ⟨granted,hgranted,rfl⟩
  have hnodup := h.nodup
  rw [h.asked] at hnodup
  refine List.disjoint_of_nodup_append hnodup ?_ hticket
  have hurl := ((h.stands _).mp hticket).1
  exact List.mem_map.mpr ⟨granted,List.mem_filter.mpr ⟨hgranted,by simpa using hurl⟩,rfl⟩

theorem Stands.unique {progress : RpcProgress ι} {m n : Nat} (hm : Stands progress m)
    (hn : Stands progress n) : m = n := by
  cases progress with
  | chained attempt previous => exact hm.symm.trans hn
  | sleeping attempt scheduledAt wakeAt => exact hm.symm.trans hn
  | _ => exact hm.elim

theorem Lined.other_calls {ticket : Ticket ι} {rest : List (Ticket ι)}
    (h : Lined calls url s (ticket::rest)) : ∀ other ∈ rest, other.call ≠ ticket.call := by
  have hnodup := h.nodup
  rw [h.asked] at hnodup
  have hout := (List.nodup_cons.mp (List.nodup_append.mp hnodup).2.1).1
  intro other hother heq
  have hfirst := ((h.stands ticket).mp List.mem_cons_self).2
  have hlater := ((h.stands other).mp (List.mem_cons_of_mem _ hother)).2
  rw [heq] at hlater
  have hattempt := hlater.unique hfirst
  obtain ⟨call,number⟩ := other
  subst heq hattempt
  exact hout hother

theorem Lined.head_of_ready (h : Lined calls url s line) {ticket : Ticket ι}
    (hticket : ticket ∈ line)
    (hready : ∀ previous, WaitsFor s.progress previous ticket → s.store.Settled previous) :
    ∃ rest, line = ticket::rest := by
  obtain ⟨before,after,rfl⟩ := List.append_of_mem hticket
  rcases List.eq_nil_or_concat before with rfl | ⟨rest,previous,rfl⟩
  · exact ⟨after,rfl⟩
  · have hchain := h.chain
    have hsplit : rest.concat previous ++ ticket::after = rest ++ previous::ticket::after := by simp
    rw [hsplit,List.isChain_append_cons_cons] at hchain
    exact absurd (hready previous hchain.2.1) (h.unsettled (by simp))

def Sleeps : RpcProgress ι → Prop
  | .sleeping _ _ _ => True
  | _ => False

/-- The longest interval for which no delay is too long for a timer. -/
def longestInterval : Rat := 2147483646

/-- The turns of an endpoint: each comes after the turn before and no whole millisecond before its
slot, and the slots keep `gap` from each other and from the next one to be given, which is never too
far away for a timer. -/
structure Paced (calls : ι → GatewayCall) (url : String) (gap : Rat) (s : Gateway ι) : Prop where
  paced : (grantedFor calls url s.store).Pairwise fun a b =>
    a.time ≤ b.scheduledAt ∧ a.scheduledAt + gap ≤ b.scheduledAt
  past : ∀ granted ∈ grantedFor calls url s.store,
    granted.scheduledAt < granted.time + 1 ∧ granted.time ≤ s.store.now
  next : ∀ granted ∈ grantedFor calls url s.store,
    ∃ next, s.store.rateLimitState url = some next ∧ granted.scheduledAt + gap ≤ next
  sleeping : ∀ i attempt scheduledAt wakeAt, (calls i).url = url →
    s.progress i = .sleeping attempt scheduledAt wakeAt →
    scheduledAt < wakeAt + 1 ∧
    (∀ granted ∈ grantedFor calls url s.store,
      granted.time ≤ scheduledAt ∧ granted.scheduledAt + gap ≤ scheduledAt) ∧
    ∃ next, s.store.rateLimitState url = some next ∧ scheduledAt + gap ≤ next ∧
      next ≤ scheduledAt + longestInterval
  awake : (∀ i, (calls i).url = url → ¬Sleeps (s.progress i)) →
    ∀ next ∈ s.store.rateLimitState url, next ≤ s.store.now + 1 + longestInterval

variable {gap : Rat}

theorem Paced.frame (h : Paced calls url gap s)
    (hgranted : grantedFor calls url t.store = grantedFor calls url s.store)
    (hnow : s.store.now ≤ t.store.now)
    (hstate : t.store.rateLimitState url = s.store.rateLimitState url)
    (hprogress : ∀ j, (calls j).url = url → t.progress j = s.progress j ∨
      ¬Sleeps (s.progress j) ∧ ¬Sleeps (t.progress j)) :
    Paced calls url gap t := by
  refine ⟨?_,?_,?_,?_,?_⟩
  · rw [hgranted]
    exact h.paced
  · rw [hgranted]
    exact fun granted hmem => ⟨(h.past granted hmem).1,(h.past granted hmem).2.trans hnow⟩
  · rw [hgranted,hstate]
    exact h.next
  · rw [hgranted,hstate]
    intro j attempt scheduledAt wakeAt hurl hp
    rcases hprogress j hurl with hsame | ⟨-,hawake⟩
    · exact h.sleeping j attempt scheduledAt wakeAt hurl (hsame ▸ hp)
    · rw [hp] at hawake
      exact absurd trivial hawake
  · intro hawake next hnext
    rw [hstate] at hnext
    have hbefore : ∀ j, (calls j).url = url → ¬Sleeps (s.progress j) := by
      intro j hurl
      rcases hprogress j hurl with hsame | ⟨hawake,-⟩
      · rw [← hsame]
        exact hawake j hurl
      · exact hawake
    have := h.awake hbefore next hnext
    linarith

theorem Lined.sleeping_first (h : Lined calls url s line) {j : ι} {attempt : Nat}
    {scheduledAt wakeAt : Rat} (hj : (calls j).url = url)
    (hp : s.progress j = .sleeping attempt scheduledAt wakeAt) : ∃ rest, line = ⟨j,attempt⟩::rest :=
  h.head_of_ready ((h.stands _).mpr ⟨hj,by simp [hp,Stands]⟩) fun ticket hwaits => by
    unfold WaitsFor at hwaits
    rw [hp] at hwaits
    cases hwaits

theorem lined_idle (calls : ι → GatewayCall) (url : String) (now : Rat) :
    Lined calls url (idleGateway now) [] := by
  refine ⟨rfl,List.nodup_nil,?_,by simp,by simp [idleGateway],by simp,List.isChain_nil,by simp⟩
  simp [idleGateway,Stands]

theorem numbered_idle (now : Rat) : Numbered (idleGateway now : Gateway ι) := by
  refine ⟨fun i => ?_,by simp [idleGateway]⟩
  simp [idleGateway,HasAttempt,rpcRetryAttempts]

theorem paced_idle (calls : ι → GatewayCall) (url : String) (gap now : Rat) :
    Paced calls url gap (idleGateway now) := by
  refine ⟨by simp [grantedFor,idleGateway],by simp [grantedFor,idleGateway],
    by simp [grantedFor,idleGateway],by simp [idleGateway],by simp [idleGateway]⟩

/-- What a step of a call can do. -/
inductive PaceStep [DecidableEq ι] (calls : ι → GatewayCall) (i : ι) (progress : RpcProgress ι)
    (store : GatewayStore ι) : RpcProgress ι → GatewayStore ι → Prop where
  | ask (attempt : Nat) (hp : progress = .entering attempt)
    (hlimited : shouldRateLimit (calls i).rps) :
    PaceStep calls i progress store (.chained attempt (store.rateLimitQueues (calls i).url))
      (store.enqueue (calls i).url ⟨i,attempt⟩)
  | reserve (attempt : Nat) (previous : Option (Ticket ι))
    (hp : progress = .chained attempt previous)
    (hready : ∀ ticket ∈ previous, store.Settled ticket) :
    PaceStep calls i progress store (.sleeping attempt (store.slot (calls i).url)
        (sleepUntilScheduled (store.slot (calls i).url) store.now))
      (store.reserveRateLimitSlot (calls i).url (intervalMs (calls i)))
  | grant (attempt : Nat) (scheduledAt wakeAt : Rat)
    (hp : progress = .sleeping attempt scheduledAt wakeAt) (hpast : wakeAt ≤ store.now) :
    PaceStep calls i progress store (.released attempt) (store.grant ⟨i,attempt⟩ scheduledAt)
  | clear (attempt : Nat) (hp : progress = .released attempt) :
    PaceStep calls i progress store (.requesting attempt)
      (store.clearRateLimitQueue (calls i).url ⟨i,attempt⟩)
  | pass (next : RpcProgress ι) (hp : ∀ n, ¬Stands progress n) (hnext : ∀ n, ¬Stands next n)
    (hattempt : HasAttempt progress → HasAttempt next ∧ begun progress ≤ begun next) :
    PaceStep calls i progress store next store

theorem not_sleeps_of_not_stands {progress : RpcProgress ι} (h : ∀ n, ¬Stands progress n) :
    ¬Sleeps progress := by
  cases progress with
  | sleeping attempt scheduledAt wakeAt => exact absurd rfl (h attempt)
  | _ => exact id

theorem afterFailure_keeps {attempt : Nat} {now : Rat} {outcome : RpcOutcome}
    (h : attempt + 1 ≤ rpcRetryAttempts) :
    HasAttempt (afterFailure attempt now outcome : RpcProgress ι) ∧
      attempt + 1 ≤ begun (afterFailure attempt now outcome : RpcProgress ι) := by
  unfold afterFailure
  split
  · rename_i hagain
    exact ⟨(triesAgain_eq_true.mp hagain).2,le_refl _⟩
  · exact ⟨le_refl _,h⟩

theorem not_stands_afterFailure {attempt : Nat} {now : Rat} {outcome : RpcOutcome} (n : Nat) :
    ¬Stands (afterFailure attempt now outcome : RpcProgress ι) n := by
  unfold afterFailure
  split <;> simp [Stands]

/-- Time passes, or one of these calls takes a step. -/
def TimeOr (who : ι → Prop) : Event ι RpcOutcome Rat → Prop
  | .outside _ => True
  | .call i _ => who i

theorem TimeOr.mono {who who' : ι → Prop} (h : ∀ i, who i → who' i)
    {event : Event ι RpcOutcome Rat} (hevent : TimeOr who event) : TimeOr who' event := by
  cases event with
  | outside ms => trivial
  | call i outcome => exact h i hevent

section Steps
variable [DecidableEq ι]

theorem advance_paces {i : ι} {outcome : RpcOutcome} {progress next : RpcProgress ι}
    {store after : GatewayStore ι}
    (h : advance calls i outcome progress store = some (next,after)) :
    PaceStep calls i progress store next after := by
  cases progress with
  | entering attempt =>
    simp only [advance] at h
    split at h
    · rename_i hlimited
      cases h
      exact .ask attempt rfl hlimited
    · cases h
      refine .pass _ (by simp [Stands]) (by simp [Stands]) fun h => ?_
      simp only [HasAttempt,begun] at h ⊢
      omega
  | chained attempt previous =>
    simp only [advance] at h
    split at h
    · rename_i hready
      cases h
      exact .reserve attempt previous rfl hready
    · cases h
  | sleeping attempt scheduledAt wakeAt =>
    simp only [advance] at h
    split at h
    · rename_i hpast
      cases h
      exact .grant attempt scheduledAt wakeAt rfl hpast
    · cases h
  | released attempt =>
    cases h
    exact .clear attempt rfl
  | requesting attempt =>
    cases outcome with
    | ok =>
      cases h
      exact .pass _ (by simp [Stands]) (by simp [Stands]) fun h => ⟨le_refl _,h⟩
    | workQueueExceeded =>
      cases h
      exact .pass _ (by simp [Stands]) not_stands_afterFailure afterFailure_keeps
    | failed =>
      cases h
      exact .pass _ (by simp [Stands]) not_stands_afterFailure afterFailure_keeps
  | backingOff attempt wakeAt =>
    simp only [advance] at h
    split at h
    · cases h
      exact .pass _ (by simp [Stands]) (by simp [Stands]) fun h => ⟨h,le_refl _⟩
    · cases h
  | finished outcome => cases h

variable {i : ι}

theorem Lined.ask (h : Lined calls url s line) (hs : Numbered s) {attempt : Nat}
    (hi : (calls i).url = url) (hp : s.progress i = .entering attempt)
    (hlimited : shouldRateLimit (calls i).rps) :
    Lined calls url ⟨s.store.enqueue (calls i).url ⟨i,attempt⟩,Function.update s.progress i
      (.chained attempt (s.store.rateLimitQueues (calls i).url))⟩ (line ++ [⟨i,attempt⟩]) := by
  subst hi
  have hnew : (⟨i,attempt⟩ : Ticket ι) ∉ s.store.asked := by
    intro hasked
    have := hs.asked _ hasked
    simp [hp,begun] at this
  have hother : ∀ ticket ∈ line, ticket.call ≠ i := by
    intro ticket hticket heq
    have := ((h.stands ticket).mp hticket).2
    simp [heq,hp,Stands] at this
  have hasked : askedFor calls (calls i).url (s.store.enqueue (calls i).url ⟨i,attempt⟩) =
      askedFor calls (calls i).url s.store ++ [⟨i,attempt⟩] := by
    simp [askedFor,GatewayStore.enqueue]
  refine ⟨?_,?_,?_,?_,by simp,?_,?_,?_⟩
  · rw [hasked,h.asked]
    simp [grantedFor,GatewayStore.enqueue]
  · rw [hasked,List.nodup_append]
    refine ⟨h.nodup,by simp,?_⟩
    simp only [List.mem_singleton,forall_eq]
    rintro ticket hticket rfl
    exact hnew (List.mem_of_mem_filter hticket)
  · intro ticket
    by_cases hcall : ticket.call = i
    · obtain ⟨call,number⟩ := ticket
      subst hcall
      have hout : (⟨call,number⟩ : Ticket ι) ∉ line := fun hmem => hother _ hmem rfl
      simp [Stands,hout,eq_comm]
    · have hne : ticket ≠ ⟨i,attempt⟩ := by
        rintro rfl
        exact hcall rfl
      simp [hcall,hne,h.stands]
  · intro _
    simp [GatewayStore.enqueue]
  · intro ticket hticket previous hwaits
    cases line with
    | nil =>
      simp only [List.nil_append,List.head?_cons,Option.mem_some_iff] at hticket
      subst hticket
      simp only [WaitsFor,Function.update_self,RpcProgress.chained.injEq,true_and] at hwaits
      exact h.free rfl previous hwaits
    | cons first rest =>
      simp only [List.cons_append,List.head?_cons,Option.mem_some_iff] at hticket
      subst hticket
      simp only [WaitsFor,Function.update_of_ne (hother _ List.mem_cons_self)] at hwaits
      exact h.first _ rfl previous hwaits
  · rw [List.isChain_append]
    refine ⟨List.IsChain.imp_of_mem_tail_imp (fun a b _ hb hwaits => ?_) h.chain,by simp,?_⟩
    · simpa only [WaitsFor,Function.update_of_ne (hother b (List.mem_of_mem_tail hb))] using hwaits
    · intro ticket hticket later hlater
      simp only [List.head?_cons,Option.mem_some_iff] at hlater
      subst hlater
      have hne : line ≠ [] := by
        rintro rfl
        simp at hticket
      simp only [WaitsFor,Function.update_self]
      rw [h.last hne,Option.mem_def.mp hticket]
  · intro ticket hticket
    rcases List.mem_append.mp hticket with hticket | hticket
    · exact h.limited ticket hticket
    · rw [List.mem_singleton.mp hticket]
      exact hlimited

theorem Lined.reserve (h : Lined calls url s line) {attempt : Nat}
    {previous : Option (Ticket ι)} (hi : (calls i).url = url)
    (hp : s.progress i = .chained attempt previous)
    (hready : ∀ ticket ∈ previous, s.store.Settled ticket) :
    Lined calls url ⟨s.store.reserveRateLimitSlot (calls i).url (intervalMs (calls i)),
      Function.update s.progress i (.sleeping attempt (s.store.slot (calls i).url)
        (sleepUntilScheduled (s.store.slot (calls i).url) s.store.now))⟩ line ∧
    ∃ rest, line = ⟨i,attempt⟩::rest := by
  have hmem : (⟨i,attempt⟩ : Ticket ι) ∈ line := (h.stands _).mpr ⟨hi,by simp [hp,Stands]⟩
  obtain ⟨rest,rfl⟩ := h.head_of_ready hmem fun ticket hwaits => by
    unfold WaitsFor at hwaits
    rw [hp] at hwaits
    cases hwaits
    exact hready ticket rfl
  have hother := h.other_calls
  refine ⟨⟨h.asked,h.nodup,?_,h.last,h.free,?_,?_,h.limited⟩,rest,rfl⟩
  · intro ticket
    rw [h.stands]
    refine and_congr_right fun _ => ?_
    by_cases hcall : ticket.call = i
    · simp [hcall,hp,Stands]
    · simp [hcall]
  · intro ticket hticket earlier hwaits
    simp only [List.head?_cons,Option.mem_some_iff] at hticket
    subst hticket
    simp [WaitsFor] at hwaits
  · refine List.IsChain.imp_of_mem_tail_imp (fun a b _ hb hwaits => ?_) h.chain
    simpa only [WaitsFor,Function.update_of_ne (hother b hb)] using hwaits

theorem Lined.grant (h : Lined calls url s line) {attempt : Nat} {scheduledAt wakeAt : Rat}
    (hi : (calls i).url = url) (hp : s.progress i = .sleeping attempt scheduledAt wakeAt) :
    ∃ rest, line = ⟨i,attempt⟩::rest ∧
      Lined calls url ⟨s.store.grant ⟨i,attempt⟩ scheduledAt,
        Function.update s.progress i (.released attempt)⟩ rest := by
  have hmem : (⟨i,attempt⟩ : Ticket ι) ∈ line := (h.stands _).mpr ⟨hi,by simp [hp,Stands]⟩
  obtain ⟨rest,rfl⟩ := h.head_of_ready hmem fun ticket hwaits => by
    unfold WaitsFor at hwaits
    rw [hp] at hwaits
    cases hwaits
  have hother := h.other_calls
  refine ⟨rest,rfl,⟨?_,h.nodup,?_,?_,?_,?_,?_,?_⟩⟩
  · have hasked := h.asked
    simp only [askedFor,grantedFor,GatewayStore.grant] at hasked ⊢
    simp [hasked,hi]
  · intro ticket
    have hline := h.stands ticket
    rw [List.mem_cons] at hline
    by_cases hcall : ticket.call = i
    · have hout : ticket ∉ rest := fun hticket => hother ticket hticket hcall
      simp [hcall,hout,Stands]
    · have hne : ticket ≠ ⟨i,attempt⟩ := by
        rintro rfl
        exact hcall rfl
      simpa [hcall,hne] using hline
  · intro hne
    have hlast := h.last (by simp)
    rwa [List.getLast?_cons_of_ne_nil hne] at hlast
  · rintro rfl ticket hticket
    have hlast := h.last (by simp)
    rw [Option.mem_def,show (s.store.grant ⟨i,attempt⟩ scheduledAt).rateLimitQueues url =
      s.store.rateLimitQueues url from rfl,hlast] at hticket
    cases hticket
    exact GatewayStore.settled_grant _ _ _
  · intro ticket hticket previous hwaits
    have hin := List.mem_of_mem_head? hticket
    simp only [WaitsFor,Function.update_of_ne (hother ticket hin)] at hwaits
    cases rest with
    | nil => simp at hticket
    | cons second rest =>
      simp only [List.head?_cons,Option.mem_some_iff] at hticket
      subst hticket
      have hchain := (List.isChain_cons_cons.mp h.chain).1
      unfold WaitsFor at hchain
      rw [hchain] at hwaits
      cases hwaits
      exact GatewayStore.settled_grant _ _ _
  · refine List.IsChain.imp_of_mem_tail_imp (fun a b _ hb hwaits => ?_) h.chain.tail
    simpa only [WaitsFor,Function.update_of_ne (hother b (List.mem_of_mem_tail hb))] using hwaits
  · exact fun ticket hticket => h.limited ticket (List.mem_cons_of_mem _ hticket)

theorem Lined.step {event : Event ι RpcOutcome Rat} (h : Lined calls url s line)
    (hs : Numbered s) (hstep : step calls event s = some t) : ∃ line', Lined calls url t line' := by
  cases event with
  | outside ms =>
    obtain ⟨store,hstore,rfl⟩ := step_outside.mp hstep
    unfold elapse at hstore
    split at hstore
    · cases hstore
      exact ⟨line,h.frame rfl rfl (fun _ hsettled => hsettled) (fun _ => rfl) h.free
        fun _ _ => Or.inl rfl⟩
    · cases hstore
  | call i outcome =>
    obtain ⟨p,store,hadvance,rfl⟩ := step_call.mp hstep
    have hpace := advance_paces hadvance
    by_cases hi : (calls i).url = url
    · cases hpace with
      | ask attempt hp hlimited => exact ⟨_,h.ask hs hi hp hlimited⟩
      | reserve attempt previous hp hready => exact ⟨_,(h.reserve hi hp hready).1⟩
      | grant attempt scheduledAt wakeAt hp hpast =>
        obtain ⟨rest,-,hrest⟩ := h.grant hi hp
        exact ⟨rest,hrest⟩
      | clear attempt hp =>
        subst hi
        refine ⟨line,h.frame (by simp [askedFor]) (by simp [grantedFor]) (by simp) ?_ ?_ ?_⟩
        · intro hne
          obtain ⟨hown,-⟩ | ⟨-,hkept⟩ := @GatewayStore.clearRateLimitQueue_queue _ _ s.store
            (calls i).url ⟨i,attempt⟩
          · -- the promise in the queue is that of the last in line, who is not `i`
            have hlast := h.last hne
            rw [hown] at hlast
            have := ((h.stands _).mp (List.mem_of_getLast? hlast.symm)).2
            simp [hp,Stands] at this
          · exact hkept
        · intro hnil ticket hticket
          obtain ⟨-,hfree⟩ | ⟨-,hkept⟩ := @GatewayStore.clearRateLimitQueue_queue _ _ s.store
            (calls i).url ⟨i,attempt⟩
          · simp [hfree] at hticket
          · rw [hkept] at hticket
            simpa using h.free hnil ticket hticket
        · intro j _
          by_cases hj : j = i
          · subst hj
            exact Or.inr ⟨by simp [hp,Stands],by simp [Stands]⟩
          · exact Or.inl (by simp [hj])
      | pass _ hp hnext _ =>
        refine ⟨line,h.frame rfl rfl (fun _ hsettled => hsettled) (fun _ => rfl) h.free
          fun j _ => ?_⟩
        by_cases hj : j = i
        · subst hj
          exact Or.inr ⟨hp,by simpa using hnext⟩
        · exact Or.inl (by simp [hj])
    · have hprogress : ∀ j, (calls j).url = url →
          Function.update s.progress i p j = s.progress j ∨
            (∀ n, ¬Stands (s.progress j) n) ∧
              ∀ n, ¬Stands (Function.update s.progress i p j) n := by
        intro j hj
        have hne : j ≠ i := by
          rintro rfl
          exact hi hj
        exact Or.inl (Function.update_of_ne hne _ _)
      have hne := Ne.symm hi
      cases hpace with
      | ask attempt hp hlimited =>
        refine ⟨line,h.frame ?_ rfl (fun _ hsettled => hsettled) ?_ ?_ hprogress⟩
        · simp [askedFor,GatewayStore.enqueue,hi]
        · simp [GatewayStore.enqueue,hne]
        · intro hnil ticket hticket
          simp only [GatewayStore.enqueue,Function.update_of_ne hne] at hticket
          exact h.free hnil ticket hticket
      | reserve attempt previous hp hready =>
        exact ⟨line,h.frame rfl rfl (fun _ hsettled => hsettled) (fun _ => rfl) h.free hprogress⟩
      | grant attempt scheduledAt wakeAt hp hpast =>
        refine ⟨line,h.frame rfl ?_ (fun _ hsettled => hsettled.grant _ _) (fun _ => rfl) ?_
          hprogress⟩
        · simp [grantedFor,GatewayStore.grant,hi]
        · exact fun hnil ticket hticket => (h.free hnil ticket hticket).grant _ _
      | clear attempt hp =>
        have hqueue := @GatewayStore.clearRateLimitQueue_queue_of_ne _ _ s.store _ ⟨i,attempt⟩ _ hne
        refine ⟨line,h.frame (by simp [askedFor]) (by simp [grantedFor]) (by simp)
          (fun _ => hqueue) ?_ hprogress⟩
        intro hnil ticket hticket
        rw [hqueue] at hticket
        simpa using h.free hnil ticket hticket
      | pass _ hp hnext _ =>
        exact ⟨line,h.frame rfl rfl (fun _ hsettled => hsettled) (fun _ => rfl) h.free hprogress⟩

theorem Numbered.update (hs : Numbered s) {p : RpcProgress ι} {store : GatewayStore ι}
    (hattempt : HasAttempt p) (hbegun : begun (s.progress i) ≤ begun p)
    (hasked : ∀ ticket ∈ store.asked, ticket ∈ s.store.asked ∨
      ticket.call = i ∧ ticket.attempt < begun p) :
    Numbered ⟨store,Function.update s.progress i p⟩ := by
  refine ⟨fun j => ?_,fun ticket hticket => ?_⟩
  · by_cases hj : j = i
    · subst hj
      simpa using hattempt
    · simpa [hj] using hs.attempts j
  · rcases hasked ticket hticket with hold | ⟨rfl,hnew⟩
    · have := hs.asked ticket hold
      by_cases hcall : ticket.call = i
      · subst hcall
        simp
        omega
      · simpa [hcall] using this
    · simpa using hnew

theorem Numbered.step {event : Event ι RpcOutcome Rat} (hs : Numbered s)
    (hstep : step calls event s = some t) : Numbered t := by
  cases event with
  | outside ms =>
    obtain ⟨store,hstore,rfl⟩ := step_outside.mp hstep
    unfold elapse at hstore
    split at hstore <;> cases hstore
    exact ⟨hs.attempts,hs.asked⟩
  | call i outcome =>
    obtain ⟨p,store,hadvance,rfl⟩ := step_call.mp hstep
    have hattempt := hs.attempts i
    cases advance_paces hadvance with
    | ask attempt hp hlimited =>
      rw [hp] at hattempt
      refine hs.update hattempt (by simp [hp,begun]) fun ticket hticket => ?_
      simp only [GatewayStore.enqueue,List.mem_append,List.mem_singleton] at hticket
      rcases hticket with hold | rfl
      · exact Or.inl hold
      · exact Or.inr ⟨rfl,by simp [begun]⟩
    | reserve attempt previous hp hready =>
      rw [hp] at hattempt
      exact hs.update hattempt (by simp [hp,begun]) fun _ => Or.inl
    | grant attempt scheduledAt wakeAt hp hpast =>
      rw [hp] at hattempt
      exact hs.update hattempt (by simp [hp,begun]) fun _ => Or.inl
    | clear attempt hp =>
      rw [hp] at hattempt
      exact hs.update hattempt (by simp [hp,begun]) fun ticket hticket =>
        Or.inl (by simpa using hticket)
    | pass _ hp hnext hkeeps =>
      obtain ⟨hnextAttempt,hbegun⟩ := hkeeps hattempt
      exact hs.update hnextAttempt hbegun fun _ => Or.inl

theorem intervalMs_nonneg {call : GatewayCall} (h : shouldRateLimit call.rps) :
    0 ≤ intervalMs call := by
  unfold shouldRateLimit at h
  unfold intervalMs
  cases hrps : call.rps with
  | none => simp [hrps] at h
  | some rps =>
    simp only [hrps,Option.any_some,decide_eq_true_eq] at h
    exact div_nonneg (by norm_num) h.le

theorem lt_sleepUntilScheduled {scheduledAt now : Rat} (h : scheduledAt - now ≤ 2147483647) :
    scheduledAt < sleepUntilScheduled scheduledAt now + 1 := by
  unfold sleepUntilScheduled timerMs
  split_ifs with hlater htimer
  · have := Int.lt_floor_add_one (scheduledAt - now)
    linarith
  · have hshort : scheduledAt - now < 1 := by
      by_contra hlong
      exact htimer ⟨not_lt.mp hlong,h⟩
    linarith
  · linarith

theorem Paced.reserve (h : Paced calls url gap s) (hline : Lined calls url s line) {attempt : Nat}
    {previous : Option (Ticket ι)} (hi : (calls i).url = url)
    (hp : s.progress i = .chained attempt previous)
    (hready : ∀ ticket ∈ previous, s.store.Settled ticket)
    (hgap : shouldRateLimit (calls i).rps →
      gap ≤ intervalMs (calls i) ∧ intervalMs (calls i) ≤ longestInterval) :
    Paced calls url gap ⟨s.store.reserveRateLimitSlot (calls i).url (intervalMs (calls i)),
      Function.update s.progress i (.sleeping attempt (s.store.slot (calls i).url)
        (sleepUntilScheduled (s.store.slot (calls i).url) s.store.now))⟩ := by
  obtain ⟨-,rest,hrest⟩ := hline.reserve hi hp hready
  have hlimited : shouldRateLimit (calls i).rps := by
    refine hline.limited ⟨i,attempt⟩ ?_
    rw [hrest]
    exact List.mem_cons_self
  subst hi
  have hinterval := intervalMs_nonneg hlimited
  obtain ⟨hgap,hlongest⟩ := hgap hlimited
  have hslot : s.store.now ≤ s.store.slot (calls i).url := le_max_left _ _
  have hafter : ∀ granted ∈ grantedFor calls (calls i).url s.store,
      granted.scheduledAt + gap ≤ s.store.slot (calls i).url := by
    intro granted hmem
    obtain ⟨next,hnext,hle⟩ := h.next granted hmem
    refine hle.trans ?_
    unfold GatewayStore.slot
    rw [hnext]
    exact le_max_right _ _
  -- whoever is to sleep is first in line, so nobody sleeps yet
  have hawake : ∀ j, (calls j).url = (calls i).url → ¬Sleeps (s.progress j) := by
    intro j hurl hsleeps
    cases hsleeping : s.progress j <;> simp only [hsleeping,Sleeps] at hsleeps
    obtain ⟨other,hother⟩ := hline.sleeping_first hurl hsleeping
    rw [hrest] at hother
    cases hother
    rw [hp] at hsleeping
    cases hsleeping
  have hdelay : s.store.slot (calls i).url - s.store.now ≤ 2147483647 := by
    unfold GatewayStore.slot
    cases hnext : s.store.rateLimitState (calls i).url with
    | none => simp
    | some next =>
      have hbound := h.awake hawake next hnext
      unfold longestInterval at hbound
      rw [Option.getD_some,sub_le_iff_le_add,max_le_iff]
      constructor <;> linarith
  have hstate : (s.store.reserveRateLimitSlot (calls i).url (intervalMs (calls i))).rateLimitState
      (calls i).url = some (s.store.slot (calls i).url + intervalMs (calls i)) := by
    simp [GatewayStore.reserveRateLimitSlot]
  refine ⟨h.paced,h.past,?_,?_,?_⟩
  · intro granted hmem
    refine ⟨_,hstate,?_⟩
    have := hafter granted hmem
    linarith
  · intro j number scheduledAt wakeAt hurl hsleeping
    by_cases hj : j = i
    · subst hj
      simp only [Function.update_self,RpcProgress.sleeping.injEq] at hsleeping
      obtain ⟨rfl,rfl,rfl⟩ := hsleeping
      refine ⟨lt_sleepUntilScheduled hdelay,fun granted hmem => ⟨?_,hafter granted hmem⟩,_,
        hstate,?_,?_⟩
      · exact (h.past granted hmem).2.trans hslot
      · linarith
      · linarith
    · simp only [Function.update_of_ne hj] at hsleeping
      have hj' := hawake j hurl
      rw [hsleeping] at hj'
      exact absurd trivial hj'
  · intro hnobody
    exact absurd (by simp [Sleeps]) (hnobody i rfl)

theorem Paced.grant (h : Paced calls url gap s) (hline : Lined calls url s line) {attempt : Nat}
    {scheduledAt wakeAt : Rat} (hi : (calls i).url = url)
    (hp : s.progress i = .sleeping attempt scheduledAt wakeAt) (hpast : wakeAt ≤ s.store.now) :
    Paced calls url gap ⟨s.store.grant ⟨i,attempt⟩ scheduledAt,
      Function.update s.progress i (.released attempt)⟩ := by
  obtain ⟨hwake,hbefore,next,hnext,hle,hlongest⟩ := h.sleeping i attempt scheduledAt wakeAt hi hp
  have hgranted : grantedFor calls url (s.store.grant ⟨i,attempt⟩ scheduledAt) =
      grantedFor calls url s.store ++ [⟨⟨i,attempt⟩,scheduledAt,s.store.now⟩] := by
    simp [grantedFor,GatewayStore.grant,hi]
  refine ⟨?_,?_,?_,?_,?_⟩
  · rw [hgranted,List.pairwise_append]
    refine ⟨h.paced,by simp,?_⟩
    simpa using hbefore
  · rw [hgranted]
    intro granted hmem
    rcases List.mem_append.mp hmem with hmem | hmem
    · exact h.past granted hmem
    · rw [List.mem_singleton.mp hmem]
      refine ⟨?_,le_refl _⟩
      change scheduledAt < s.store.now + 1
      linarith
  · rw [hgranted]
    intro granted hmem
    rcases List.mem_append.mp hmem with hmem | hmem
    · exact h.next granted hmem
    · rw [List.mem_singleton.mp hmem]
      exact ⟨next,hnext,hle⟩
  · intro j number later wake hurl hsleeping
    by_cases hj : j = i
    · subst hj
      simp at hsleeping
    · simp only [Function.update_of_ne hj] at hsleeping
      obtain ⟨rest,hrest⟩ := hline.sleeping_first hi hp
      obtain ⟨other,hother⟩ := hline.sleeping_first hurl hsleeping
      rw [hrest] at hother
      cases hother
      exact absurd rfl hj
  · intro _ following hfollowing
    obtain rfl : next = following := Option.some.inj (hnext.symm.trans hfollowing)
    change next ≤ s.store.now + 1 + longestInterval
    linarith

/-- What a step leaves of the distances, where the calls of the endpoint keep at least `gap`. -/
theorem Paced.step {event : Event ι RpcOutcome Rat} (h : Paced calls url gap s)
    (hline : Lined calls url s line)
    (hgap : ∀ i, (calls i).url = url → shouldRateLimit (calls i).rps →
      gap ≤ intervalMs (calls i) ∧ intervalMs (calls i) ≤ longestInterval)
    (hstep : step calls event s = some t) : Paced calls url gap t := by
  cases event with
  | outside ms =>
    obtain ⟨store,hstore,rfl⟩ := step_outside.mp hstep
    unfold elapse at hstore
    split at hstore
    · rename_i hms
      cases hstore
      exact h.frame rfl (by simp; exact hms) rfl fun _ _ => Or.inl rfl
    · cases hstore
  | call i outcome =>
    obtain ⟨p,store,hadvance,rfl⟩ := step_call.mp hstep
    have hkeeps : ¬Sleeps (s.progress i) ∧ ¬Sleeps p ∨ (calls i).url ≠ url →
        ∀ j, (calls j).url = url → Function.update s.progress i p j = s.progress j ∨
          ¬Sleeps (s.progress j) ∧ ¬Sleeps (Function.update s.progress i p j) := by
      intro hother j hurl
      by_cases hj : j = i
      · subst hj
        rw [Function.update_self]
        rcases hother with hawake | hne
        · exact Or.inr hawake
        · exact absurd hurl hne
      · exact Or.inl (Function.update_of_ne hj _ _)
    cases advance_paces hadvance with
    | ask attempt hp hlimited =>
      exact h.frame rfl (le_refl _) rfl (hkeeps (Or.inl (by simp [hp,Sleeps])))
    | reserve attempt previous hp hready =>
      by_cases hi : (calls i).url = url
      · exact h.reserve hline hi hp hready (hgap i hi)
      · refine h.frame rfl (le_refl _) ?_ (hkeeps (Or.inr hi))
        simp [GatewayStore.reserveRateLimitSlot,Ne.symm hi]
    | grant attempt scheduledAt wakeAt hp hpast =>
      by_cases hi : (calls i).url = url
      · exact h.grant hline hi hp hpast
      · refine h.frame ?_ (le_refl _) rfl (hkeeps (Or.inr hi))
        simp [grantedFor,GatewayStore.grant,hi]
    | clear attempt hp =>
      exact h.frame (by simp [grantedFor]) (by simp) (by simp)
        (hkeeps (Or.inl (by simp [hp,Sleeps])))
    | pass _ hp hnext _ =>
      exact h.frame rfl (le_refl _) rfl
        (hkeeps (Or.inl ⟨not_sleeps_of_not_stands hp,not_sleeps_of_not_stands hnext⟩))

variable {events : List (Event ι RpcOutcome Rat)} {now : Rat}

theorem lined_run (hrun : Machine.run (step calls) events (idleGateway now) = some s) :
    Numbered s ∧ ∀ url, ∃ line, Lined calls url s line := by
  refine @Machine.run_invariant _ _ (step calls) _ _ _
    (fun s => Numbered s ∧ ∀ url, ∃ line, Lined calls url s line) ?_ ?_ hrun
  · rintro event s t ⟨hs,hlined⟩ hstep
    refine ⟨hs.step hstep,fun url => ?_⟩
    obtain ⟨line,hline⟩ := hlined url
    exact hline.step hs hstep
  · exact ⟨numbered_idle now,fun url => ⟨[],lined_idle calls url now⟩⟩

theorem paced_run (hgap : ∀ i, (calls i).url = url → shouldRateLimit (calls i).rps →
      gap ≤ intervalMs (calls i) ∧ intervalMs (calls i) ≤ longestInterval)
    (hrun : Machine.run (step calls) events (idleGateway now) = some s) :
    Paced calls url gap s := by
  refine (@Machine.run_invariant _ _ (step calls) _ _ _
    (fun s => Numbered s ∧ (∃ line, Lined calls url s line) ∧ Paced calls url gap s) ?_ ?_ hrun).2.2
  · rintro event s t ⟨hs,⟨line,hline⟩,hpaced⟩ hstep
    exact ⟨hs.step hstep,hline.step hs hstep,hpaced.step hline hgap hstep⟩
  · exact ⟨numbered_idle now,⟨[],lined_idle calls url now⟩,paced_idle calls url gap now⟩

/-- Two calls of a node that takes ten requests a second. -/
def tenPerSecond : Bool → GatewayCall := fun _ => ⟨"http://node:22555",some 10⟩

def overlapping : List (Event Bool RpcOutcome Rat) :=
  [.call false .ok,.call true .ok,.call false .ok,.call false .ok,.call true .ok,.outside 100,
    .call true .ok]

theorem overlapping_runs : ∃ s, Machine.run (step tenPerSecond) overlapping (idleGateway 0) =
    some s ∧ s.store.granted.map (fun granted => (granted.ticket.call,granted.time)) =
      [(false,0),(true,100)] := by
  have hrun : (Machine.run (step tenPerSecond) overlapping (idleGateway 0)).map
      (fun s => s.store.granted.map fun granted => (granted.ticket.call,granted.time)) =
        some [(false,0),(true,100)] := by decide +kernel
  exact Option.map_eq_some_iff.mp hrun

/-- The sleep of the second call ends late, the timer of the fourth before the slot. -/
def timersOff : List (Event (Fin 4) RpcOutcome Rat) :=
  [.call 0 .ok,.call 0 .ok,.call 0 .ok,.call 1 .ok,.call 1 .ok,.outside 40,.call 1 .ok,
    .call 2 .ok,.call 2 .ok,.call 2 .ok,.call 3 .ok,.call 3 .ok,.outside 15,.call 3 .ok]

/-- A call is let through four times at most: once, and once more for each of its retries. -/
theorem length_granted_le (hrun : Machine.run (step calls) events (idleGateway now) = some s)
    (i : ι) : (s.store.granted.filter fun granted => granted.ticket.call = i).length ≤
      rpcRetryAttempts := by
  obtain ⟨hs,hlined⟩ := lined_run hrun
  obtain ⟨line,hline⟩ := hlined (calls i).url
  have hasked : ∀ ticket ∈ s.store.asked, ticket.attempt < rpcRetryAttempts := by
    intro ticket hticket
    have hbegun := hs.asked ticket hticket
    have hattempt := hs.attempts ticket.call
    cases hp : s.progress ticket.call <;>
      simp only [hp,HasAttempt,begun,rpcRetryAttempts] at * <;> omega
  have hown : s.store.granted.filter (fun granted => granted.ticket.call = i) =
      (grantedFor calls (calls i).url s.store).filter fun granted => granted.ticket.call = i := by
    unfold grantedFor
    rw [List.filter_filter]
    refine List.filter_congr fun granted _ => ?_
    by_cases hcall : granted.ticket.call = i <;> simp [hcall]
  have hall := hline.nodup
  rw [hline.asked] at hall
  have htickets : (((s.store.granted.filter fun granted => granted.ticket.call = i)).map
      (·.ticket)).Nodup := by
    rw [hown]
    exact ((List.nodup_append.mp hall).1).sublist ((List.filter_sublist).map _)
  have hattempts : (((s.store.granted.filter fun granted => granted.ticket.call = i).map
      (·.ticket)).map (·.attempt)).Nodup := by
    refine List.Nodup.map_on (fun a ha b hb heq => ?_) htickets
    obtain ⟨granted,hgranted,rfl⟩ := List.mem_map.mp ha
    obtain ⟨other,hother,rfl⟩ := List.mem_map.mp hb
    have hcall := of_decide_eq_true (List.mem_filter.mp hgranted).2
    have hcall' := of_decide_eq_true (List.mem_filter.mp hother).2
    cases hticket : granted.ticket
    cases hticket' : other.ticket
    simp_all
  have hsubset : ((s.store.granted.filter fun granted => granted.ticket.call = i).map
      (·.ticket)).map (·.attempt) ⊆ List.range rpcRetryAttempts := by
    intro attempt hattempt
    obtain ⟨ticket,hticket,rfl⟩ := List.mem_map.mp hattempt
    rw [hown] at hticket
    obtain ⟨granted,hgranted,rfl⟩ := List.mem_map.mp hticket
    have hmem : granted.ticket ∈ askedFor calls (calls i).url s.store := by
      rw [hline.asked]
      exact List.mem_append_left _ (List.mem_map_of_mem (List.mem_of_mem_filter hgranted))
    exact List.mem_range.mpr (hasked _ (List.mem_of_mem_filter hmem))
  have hle := (List.subperm_of_subset hattempts hsubset).length_le
  simpa using hle

theorem length_granted_le_of_overlapping : ∃ s, Machine.run (step tenPerSecond) overlapping
      (idleGateway 0) = some s ∧ s.store.granted.length = 2 ∧
    (s.store.granted.filter fun granted => granted.ticket.call = true).length ≤ 4 := by
  obtain ⟨s,hs,hgranted⟩ := overlapping_runs
  exact ⟨s,hs,by simpa using congrArg List.length hgranted,length_granted_le hs true⟩

theorem serve_sleeping {attempt : Nat} {scheduledAt wakeAt : Rat} {rest : List (Ticket ι)}
    (h : Lined calls url s (⟨i,attempt⟩::rest))
    (hp : s.progress i = .sleeping attempt scheduledAt wakeAt) :
    ∃ events t, Machine.run (step calls) events s = some t ∧ Lined calls url t rest ∧
      t.store.Settled ⟨i,attempt⟩ ∧ ∀ event ∈ events, TimeOr (· = i) event := by
  have hurl := ((h.stands _).mp List.mem_cons_self).1
  -- the time that is left of the sleep
  have hleft : 0 ≤ max 0 (wakeAt - s.store.now) := le_max_left _ _
  have hpast : wakeAt ≤ s.store.now + max 0 (wakeAt - s.store.now) := by
    have := le_max_right 0 (wakeAt - s.store.now)
    linarith
  have hlater : Lined calls url
      ⟨{ s.store with now := s.store.now + max 0 (wakeAt - s.store.now) },s.progress⟩
        (⟨i,attempt⟩::rest) :=
    h.frame rfl rfl (fun _ hsettled => hsettled) (fun _ => rfl) h.free fun _ _ => Or.inl rfl
  obtain ⟨tail,htail,hgranted⟩ := hlater.grant hurl hp
  cases htail
  refine ⟨[.outside (max 0 (wakeAt - s.store.now)),.call i .ok],_,?_,hgranted,?_,?_⟩
  · simp [Machine.run,step,Interleaving.step,elapse,advance,hp,hpast]
  · exact GatewayStore.settled_grant _ _ _
  · simp [TimeOr]

theorem serve_first {first : Ticket ι} {rest : List (Ticket ι)}
    (h : Lined calls url s (first::rest)) :
    ∃ events t, Machine.run (step calls) events s = some t ∧ Lined calls url t rest ∧
      t.store.Settled first ∧ ∀ event ∈ events, TimeOr (· = first.call) event := by
  obtain ⟨hurl,hstands⟩ := (h.stands first).mp List.mem_cons_self
  obtain ⟨i,attempt⟩ := first
  cases hp : s.progress i with
  | sleeping number scheduledAt wakeAt =>
    rw [hp] at hstands
    cases hstands
    exact serve_sleeping h hp
  | chained number previous =>
    rw [hp] at hstands
    cases hstands
    have hready : ∀ ticket ∈ previous, s.store.Settled ticket := by
      rintro ticket hticket
      cases hticket
      exact h.first _ rfl ticket hp
    obtain ⟨hreserved,-⟩ := h.reserve hurl hp hready
    obtain ⟨events,t,hrun,hline,hfirst,hown⟩ := serve_sleeping hreserved (Function.update_self ..)
    refine ⟨.call i .ok::events,t,?_,hline,hfirst,by simpa [TimeOr] using hown⟩
    have hstep : step calls (.call i .ok) s = some
        ⟨s.store.reserveRateLimitSlot (calls i).url (intervalMs (calls i)),
          Function.update s.progress i (.sleeping attempt (s.store.slot (calls i).url)
            (sleepUntilScheduled (s.store.slot (calls i).url) s.store.now))⟩ := by
      simp only [step,Interleaving.step,advance,hp]
      rw [if_pos hready]
      rfl
    rw [Machine.run,hstep]
    exact hrun
  | _ =>
    rw [hp] at hstands
    exact hstands.elim

/-- Those ahead of a ticket have their turns one after the other, and then it has its own. -/
theorem turn_of_line {ahead behind : List (Ticket ι)} {ticket : Ticket ι}
    (h : Lined calls url s (ahead ++ ticket::behind)) :
    ∃ more t, Machine.run (step calls) more s = some t ∧ t.store.Settled ticket ∧
      ∀ event ∈ more, TimeOr (fun j => ∃ other ∈ ahead ++ [ticket], other.call = j) event := by
  induction ahead generalizing s with
  | nil =>
    obtain ⟨more,t,hmore,-,hsettled,hown⟩ := serve_first h
    refine ⟨more,t,hmore,hsettled,fun event hevent => (hown event hevent).mono ?_⟩
    rintro j rfl
    exact ⟨ticket,by simp,rfl⟩
  | cons first ahead ih =>
    obtain ⟨events,t,hevents,hrest,-,hfirst⟩ := serve_first h
    obtain ⟨more,u,hmore,hsettled,hothers⟩ := ih hrest
    refine ⟨events ++ more,u,by rw [Machine.run_append,hevents]; exact hmore,hsettled,?_⟩
    intro event hevent
    rcases List.mem_append.mp hevent with hevent | hevent
    · refine (hfirst event hevent).mono ?_
      rintro j rfl
      exact ⟨first,by simp,rfl⟩
    · refine (hothers event hevent).mono ?_
      rintro j ⟨other,hother,rfl⟩
      exact ⟨other,List.mem_cons_of_mem _ hother,rfl⟩

/-- The ticket itself, or one that asked for a slot of the endpoint before it and waits as well. -/
def WaitsUpTo (calls : ι → GatewayCall) (store : GatewayStore ι) (ticket other : Ticket ι) : Prop :=
  other = ticket ∨ ¬store.Settled other ∧
    [other,ticket].Sublist (askedFor calls (calls ticket.call).url store)

/-- Nobody waits for a promise that cannot be kept: from every state that a gateway comes to, a call
that has asked for a slot can be let through by nothing but time and the calls before it. -/
theorem turn_reachable (hrun : Machine.run (step calls) events (idleGateway now) = some s) {i : ι}
    {attempt : Nat} (hstands : Stands (s.progress i) attempt) :
    ∃ more t, Machine.run (step calls) (events ++ more) (idleGateway now) = some t ∧
      t.store.Settled ⟨i,attempt⟩ ∧
      ∀ event ∈ more, TimeOr
        (fun j => ∃ other, WaitsUpTo calls s.store ⟨i,attempt⟩ other ∧ other.call = j) event := by
  obtain ⟨-,hlined⟩ := lined_run hrun
  obtain ⟨line,hline⟩ := hlined (calls i).url
  have hmem : (⟨i,attempt⟩ : Ticket ι) ∈ line := (hline.stands _).mpr ⟨rfl,hstands⟩
  obtain ⟨ahead,behind,rfl⟩ := List.append_of_mem hmem
  obtain ⟨more,t,hmore,hsettled,hothers⟩ := turn_of_line hline
  refine ⟨more,t,by rw [Machine.run_append,hrun]; exact hmore,hsettled,fun event hevent => ?_⟩
  refine (hothers event hevent).mono ?_
  rintro j ⟨other,hother,rfl⟩
  refine ⟨other,?_,rfl⟩
  rcases List.mem_append.mp hother with hother | hother
  · refine Or.inr ⟨hline.unsettled (List.mem_append_left _ hother),?_⟩
    have hpair : [other,⟨i,attempt⟩].Sublist (ahead ++ ⟨i,attempt⟩::behind) :=
      (List.singleton_sublist.mpr hother).append (List.singleton_sublist.mpr List.mem_cons_self)
    rw [hline.asked]
    exact hpair.trans (List.sublist_append_right _ _)
  · exact Or.inl (List.mem_singleton.mp hother)

def chainedAt : RpcProgress Bool → Option Nat
  | .chained attempt _ => some attempt
  | _ => none

theorem turn_reachable_of_chained : ∃ s, Machine.run (step tenPerSecond)
      (overlapping.take 2) (idleGateway 0) = some s ∧ s.store.granted.length = 0 ∧
    ∃ more t, Machine.run (step tenPerSecond) (overlapping.take 2 ++ more) (idleGateway 0) =
      some t ∧ t.store.Settled ⟨true,0⟩ ∧
      ∀ event ∈ more, TimeOr
        (fun j => ∃ other, WaitsUpTo tenPerSecond s.store ⟨true,0⟩ other ∧ other.call = j)
          event := by
  have hrun : (Machine.run (step tenPerSecond) (overlapping.take 2) (idleGateway 0)).map
      (fun s => (s.store.granted.length,chainedAt (s.progress true))) = some (0,some 0) := by
    decide +kernel
  obtain ⟨s,hs,hstate⟩ := Option.map_eq_some_iff.mp hrun
  obtain ⟨hnone,hchained⟩ := Prod.mk.inj hstate
  refine ⟨s,hs,hnone,turn_reachable hs ?_⟩
  cases hp : s.progress true <;> simp_all [chainedAt,Stands]

end Steps
end OnlyDoge.Node
