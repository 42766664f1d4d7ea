import Cvos.MsgQueue.Model

/-! Where the messages of a run are: every accepted message is delivered, pending or was
discarded by a queue removal, and only the last keeps an acknowledged one from its receiver.
-/

namespace Cvos.MsgQueue

open Cvos.Lib

variable {process : Nat → Nat} {room : List Message → Message → Bool} {key : Int}
  {receiverQueue : Nat}

/-- The ticket of the message that a party has queued in its current call. -/
def Pc.ticket? : Pc → Option Nat
  | .sent _ _ _ ticket | .unlocking _ _ ticket => ticket
  | .idle | .locked _ _ | .opened _ _ _ => none

/-- A party only ever looks up the receiver's queue, and a party that has queued a message
has a zero result and a ticket already given out.
-/
def Pc.Sound (receiverQueue nextTicket : Nat) : Pc → Prop
  | .idle | .locked _ _ => True
  | .opened queId _ _ => queId = receiverQueue
  | .sent queId ret _ ticket =>
      queId = receiverQueue ∧ ∀ t, ticket = some t → ret = 0 ∧ t < nextTicket
  | .unlocking ret _ ticket => ∀ t, ticket = some t → ret = 0 ∧ t < nextTicket

/-- Soundness survives giving out further tickets. -/
theorem Pc.Sound.mono {pc : Pc} {nextTicket later : Nat}
    (h : pc.Sound receiverQueue nextTicket) (grows : nextTicket ≤ later)
    : pc.Sound receiverQueue later := by
  cases pc with
  | idle => trivial
  | locked mType mText => trivial
  | opened queId mType mText => exact h
  | sent queId ret errno ticket =>
      refine ⟨h.1, ?_⟩
      intro t carried
      exact ⟨(h.2 t carried).1, Nat.lt_of_lt_of_le (h.2 t carried).2 grows⟩
  | unlocking ret errno ticket =>
      intro t carried
      exact ⟨(h t carried).1, Nat.lt_of_lt_of_le (h t carried).2 grows⟩

/-- Some party's current call has queued the message with this ticket. -/
def Carries (parties : List Pc) (ticket : Nat) : Prop :=
  ∃ (party : Nat) (pc : Pc), parties[party]? = some pc ∧ pc.ticket? = some ticket

/-- A party that moves on either carried the ticket itself or leaves its carrier alone. -/
theorem Carries.set {parties : List Pc} {party ticket : Nat} {old : Pc} (new : Pc)
    (stands : parties[party]? = some old) (carried : Carries parties ticket)
    : old.ticket? = some ticket ∨ Carries (parties.set party new) ticket := by
  obtain ⟨carrier, pc, found, holds⟩ := carried
  by_cases same : party = carrier
  · subst same
    obtain rfl : old = pc := Option.some.inj (stands.symm.trans found)
    exact Or.inl holds
  · exact Or.inr ⟨carrier, pc, by rwa [List.getElem?_set_ne same], holds⟩

/-- A party that moves to a program point with a ticket carries it. -/
theorem Carries.of_set {parties : List Pc} {party ticket : Nat} {old new : Pc}
    (stands : parties[party]? = some old) (holds : new.ticket? = some ticket)
    : Carries (parties.set party new) ticket := by
  obtain ⟨bound, -⟩ := List.getElem?_eq_some_iff.mp stands
  exact ⟨party, new, List.getElem?_set_self bound, holds⟩

/-- A party that moves on with the ticket it had changes nothing about who carries what. -/
theorem Carries.set_same {parties : List Pc} {party ticket : Nat} {old new : Pc}
    (stands : parties[party]? = some old) (same : old.ticket? = new.ticket?)
    (carried : Carries parties ticket)
    : Carries (parties.set party new) ticket := by
  rcases carried.set new stands with own | other
  · exact .of_set stands (same ▸ own)
  · exact other

/-- An accepted message joins the pending ones of its queue. -/
theorem pendingTickets_msgsnd {k after : Kernel} {queId : Nat} {m : Message}
    (accepted : k.msgsnd room queId m = some after)
    : after.ids = k.ids
      ∧ pendingTickets after queId = pendingTickets k queId ++ m.ticket.toList := by
  unfold Kernel.msgsnd at accepted
  cases found : k.queues queId with
  | none => simp [found] at accepted
  | some pending =>
      simp only [found] at accepted
      split at accepted
      next allowed =>
        obtain rfl := Option.some.inj accepted
        cases ticket : m.ticket <;> simp [pendingTickets, found, ticket]
      next refused => contradiction

/-- A received message was the first of the pending ones. -/
theorem pendingTickets_msgrcv {k after : Kernel} {queId : Nat} {m : Message}
    (received : k.msgrcv queId = some (m, after))
    : after.ids = k.ids
      ∧ pendingTickets k queId = m.ticket.toList ++ pendingTickets after queId := by
  unfold Kernel.msgrcv at received
  cases found : k.queues queId with
  | none => simp [found] at received
  | some pending =>
      cases pending with
      | nil => simp [found] at received
      | cons oldest rest =>
          simp only [found, Option.some.injEq, Prod.mk.injEq] at received
          obtain ⟨rfl, rfl⟩ := received
          cases ticket : oldest.ticket <;> simp [pendingTickets, found, ticket]

/-- `MSG_QueRevMsg` moves at most one ticket out of the queue, to its caller. -/
theorem pendingTickets_msgQueRevMsg {k after : Kernel} {queId msgBodyLen : Nat}
    {errno ret : Int} {output : Option Message}
    (returned : msgQueRevMsg k queId msgBodyLen errno = (ret, output, after))
    : after.ids = k.ids
      ∧ pendingTickets k queId
        = (output.bind Message.ticket).toList ++ pendingTickets after queId := by
  unfold msgQueRevMsg at returned
  rw [if_neg (by omega), Int.toNat_natCast] at returned
  cases received : k.msgrcv queId with
  | none =>
      simp only [received, Prod.mk.injEq] at returned
      obtain ⟨-, rfl, rfl⟩ := returned
      simp
  | some pair =>
      obtain ⟨m, rest⟩ := pair
      simp only [received, Prod.mk.injEq] at returned
      obtain ⟨-, rfl, rfl⟩ := returned
      simpa using pendingTickets_msgrcv received

/-- Removing a queue leaves no pending message under its id. -/
theorem pendingTickets_msgctlRmid (k : Kernel) (queId : Nat)
    : pendingTickets (k.msgctlRmid queId) queId = [] := by
  simp [pendingTickets, Kernel.msgctlRmid]

/-- The bookkeeping of a run: the key leads to the receiver's queue or nowhere, every ticket
given out is in exactly one of the three places, and it is acknowledged unless the call that
took it is still in progress.
-/
structure Accounted (key : Int) (receiverQueue : Nat) (s : System) : Prop where
  keyed : ∀ queId, s.kernel.ids key = some queId → queId = receiverQueue
  sound : ∀ pc ∈ s.parties, pc.Sound receiverQueue s.nextTicket
  ledger
    : (s.delivered ++ pendingTickets s.kernel receiverQueue ++ s.discarded).Perm
        (List.range s.nextTicket)
  issued : ∀ ticket ∈ s.acknowledged, ticket < s.nextTicket
  outstanding
    : ∀ ticket < s.nextTicket, ticket ∈ s.acknowledged ∨ Carries s.parties ticket

/-- The start of a run is accounted for: no ticket has been given out. -/
theorem Started.accounted {s : System} (h : Started key receiverQueue s)
    : Accounted key receiverQueue s := by
  obtain ⟨before, fresh, untracked, created⟩ := h.obtained
  obtain ⟨acknowledged, delivered, discarded⟩ := h.noHistory
  have keyed : ∀ queId, s.kernel.ids key = some queId → queId = receiverQueue := by
    intro queId found
    unfold msgQueCreate Kernel.msggetCreate at created
    cases known : before.ids key with
    | some old =>
        simp only [known, Prod.mk.injEq] at created
        obtain ⟨rfl, same⟩ := created
        simpa [← same, known, eq_comm] using found
    | none =>
        simp only [known, Prod.mk.injEq] at created
        obtain ⟨rfl, same⟩ := created
        simpa [← same, eq_comm] using found
  have untracked' : pendingTickets s.kernel receiverQueue = [] := by
    have pending : ∀ m ∈ (s.kernel.queues receiverQueue).getD [], m.ticket = none := by
      unfold msgQueCreate Kernel.msggetCreate at created
      intro m member
      cases found : s.kernel.queues receiverQueue with
      | none => simp [found] at member
      | some queue =>
          rw [found] at member
          cases known : before.ids key with
          | some old =>
              simp only [known, Prod.mk.injEq] at created
              exact untracked _ queue (created.2 ▸ found) m member
          | none =>
              simp only [known, Prod.mk.injEq] at created
              obtain ⟨rfl, same⟩ := created
              simp only [← same, if_true, Option.some.injEq] at found
              simp [← found] at member
    unfold pendingTickets
    exact List.filterMap_eq_nil_iff.mpr pending
  exact {
    keyed
    sound := fun pc member => by rw [h.idle pc member]; trivial
    ledger := by simp [delivered, discarded, untracked', h.noTicket]
    issued := by simp [acknowledged]
    outstanding := by simp [h.noTicket]
  }

/-- Replacing one party by a sound one keeps all parties sound. -/
theorem sound_set {parties : List Pc} {nextTicket later party : Nat} {new : Pc}
    (sound : ∀ pc ∈ parties, pc.Sound receiverQueue nextTicket)
    (grows : nextTicket ≤ later) (good : new.Sound receiverQueue later)
    : ∀ pc ∈ parties.set party new, pc.Sound receiverQueue later := by
  intro pc member
  rcases List.mem_or_eq_of_mem_set member with old | rfl
  · exact (sound pc old).mono grows
  · exact good

/-- A step that only moves a party, with the ticket it had, keeps the bookkeeping. -/
theorem Accounted.move {s : System} {party : Nat} {old new : Pc} {held : Nat → Bool}
    (h : Accounted key receiverQueue s) (stands : s.parties[party]? = some old)
    (good : new.Sound receiverQueue s.nextTicket) (same : old.ticket? = new.ticket?)
    : Accounted key receiverQueue { s with parties := s.parties.set party new, held } where
  keyed := h.keyed
  sound := sound_set h.sound (Nat.le_refl _) good
  ledger := h.ledger
  issued := h.issued
  outstanding := fun ticket bound =>
    (h.outstanding ticket bound).imp_right (fun carried => carried.set_same stands same)

/-- Every step keeps the bookkeeping, by cases on the step. -/
theorem Accounted.step {s next : System} {label : Label}
    (h : Accounted key receiverQueue s)
    (taken : Step process room key receiverQueue s label next)
    : Accounted key receiverQueue next := by
  cases taken with
  | lock mType mText idle free => exact h.move idle trivial rfl
  | @msggetFinds party mType mText queId locked found =>
      exact h.move locked (h.keyed queId found) rfl
  | msggetFails locked missing failed => exact h.move locked (by simp [Pc.Sound]) rfl
  | @msgsndAccepts party queId mType mText kernel opened accepted =>
      have target : queId = receiverQueue := h.sound _ (List.mem_of_getElem? opened)
      subst target
      obtain ⟨sameIds, appended⟩ := pendingTickets_msgsnd accepted
      exact {
        keyed := by simpa only [sameIds] using h.keyed
        sound := sound_set h.sound (Nat.le_succ _) ⟨rfl, by simp⟩
        ledger := by
          have grown := h.ledger.append_right [s.nextTicket]
          rw [← List.range_succ] at grown
          refine List.Perm.trans ?_ grown
          simp only [appended, Option.toList_some, List.append_assoc]
          exact (List.perm_append_comm.append_left _).append_left _
        issued := fun ticket member => Nat.lt_succ_of_lt (h.issued ticket member)
        outstanding := by
          intro ticket bound
          rcases Nat.lt_succ_iff_lt_or_eq.mp bound with earlier | rfl
          · exact (h.outstanding ticket earlier).imp_right
              (fun carried => (carried.set _ opened).resolve_left (by simp [Pc.ticket?]))
          · exact Or.inr (.of_set opened rfl)
      }
  | @msgsndFails party queId mType mText errno opened refused failed =>
      have target : queId = receiverQueue := h.sound _ (List.mem_of_getElem? opened)
      exact h.move opened ⟨target, by simp⟩ rfl
  | @msgctl party queId ret errno ticket sent =>
      obtain ⟨rfl, carried⟩ := h.sound _ (List.mem_of_getElem? sent)
      exact {
        keyed := by
          intro other found
          simp only [Kernel.msgctlRmid] at found
          split at found
          next removed => contradiction
          next kept => exact h.keyed other found
        sound := sound_set h.sound (Nat.le_refl _) carried
        ledger := by
          refine List.Perm.trans ?_ h.ledger
          simp only [pendingTickets_msgctlRmid, List.append_nil, List.append_assoc]
          exact List.perm_append_comm.append_left _
        issued := h.issued
        outstanding := fun t bound =>
          (h.outstanding t bound).imp_right (fun carried => carried.set_same sent rfl)
      }
  | @unlock party ret errno ticket unlocking =>
      have carried := h.sound _ (List.mem_of_getElem? unlocking)
      have acknowledges (t : Nat) (own : ticket = some t) : sndResult ret errno = 0 := by
        simp [sndResult, (carried t own).1]
      exact {
        keyed := h.keyed
        sound := sound_set h.sound (Nat.le_refl _) trivial
        ledger := h.ledger
        issued := by
          intro t member
          dsimp only at member
          split at member
          next success =>
            rcases List.mem_append.mp member with earlier | now
            · exact h.issued t earlier
            · exact (carried t (by simpa using now)).2
          next failure => exact h.issued t member
        outstanding := by
          intro t bound
          rcases h.outstanding t bound with earlier | current
          · refine Or.inl ?_
            dsimp only
            split <;> simp [earlier]
          · rcases current.set .idle unlocking with own | other
            · exact Or.inl (by simp [acknowledges t own, show ticket = some t from own])
            · exact Or.inr other
      }
  | @receive party ret output kernel msgBodyLen errno idle free returned =>
      obtain ⟨sameIds, taken⟩ := pendingTickets_msgQueRevMsg returned
      exact {
        keyed := by simpa only [sameIds] using h.keyed
        sound := h.sound
        ledger := by simpa only [taken, List.append_assoc] using h.ledger
        issued := h.issued
        outstanding := h.outstanding
      }

/-- Every state of a run is accounted for, by induction over the run. -/
theorem accounted_of_run {start s : System} {trace : List (System × Label)}
    (started : Started key receiverQueue start)
    (run : Run (Step process room key receiverQueue) start trace s)
    : Accounted key receiverQueue s :=
  run.invariant (Accounted key receiverQueue) started.accounted
    (fun _ taken accounted => accounted.step taken)

/-- A removal step is harmless when no message of the run is pending in the queue. -/
def Harmless (receiverQueue : Nat) (s : System) (label : Label) : Prop :=
  label.action = .msgctl → pendingTickets s.kernel receiverQueue = []

/-- The messages discarded so far are those that the removal steps of the run found pending.
Witness: only `msgctl` extends the discarded list, by the tickets it finds.
-/
theorem discarded_eq_nil_iff {start s : System} {trace : List (System × Label)}
    (started : Started key receiverQueue start)
    (run : Run (Step process room key receiverQueue) start trace s)
    : s.discarded = []
      ↔ ∀ state label, (state, label) ∈ trace → Harmless receiverQueue state label := by
  induction run with
  | start => simp [started.noHistory.2.2]
  | @extend trace state label next before taken ih =>
      have accounted := accounted_of_run started before
      have last : next.discarded = []
          ↔ state.discarded = [] ∧ Harmless receiverQueue state label := by
        cases taken with
        | @msgctl party queId ret errno ticket sent =>
            obtain ⟨rfl, -⟩ := accounted.sound _ (List.mem_of_getElem? sent)
            simp [Harmless]
        | lock | msggetFinds | msggetFails | msgsndAccepts | msgsndFails | unlock | receive =>
            simp [Harmless]
      rw [last, ih]
      simp only [List.mem_append, List.mem_singleton, Prod.mk.injEq]
      constructor
      · rintro ⟨earlier, now⟩ other otherLabel (member | ⟨rfl, rfl⟩)
        · exact earlier other otherLabel member
        · exact now
      · intro all
        exact ⟨fun other otherLabel member => all other otherLabel (Or.inl member),
          all state label (Or.inr ⟨rfl, rfl⟩)⟩

/-- If no removal of the run discarded one of its messages, no acknowledged message is lost.
-/
theorem Accounted.noneLost {s : System} (h : Accounted key receiverQueue s)
    (kept : s.discarded = [])
    : NoneLost receiverQueue s := by
  intro ticket member
  have somewhere := h.ledger.mem_iff.mpr (List.mem_range.mpr (h.issued ticket member))
  simpa [kept] using somewhere

/-- Once no call is in progress, a discarded message is an acknowledged one that is lost.
Witness: the ledger lists every ticket in one place only.
-/
theorem Accounted.discarded_eq_nil {s : System} (h : Accounted key receiverQueue s)
    (quiet : ∀ pc ∈ s.parties, pc = .idle) (none : NoneLost receiverQueue s)
    : s.discarded = [] := by
  refine List.eq_nil_iff_forall_not_mem.mpr ?_
  intro ticket member
  have unique := h.ledger.nodup_iff.mpr List.nodup_range
  obtain ⟨-, -, apart⟩ := List.nodup_append.mp unique
  have bound : ticket < s.nextTicket :=
    List.mem_range.mp (h.ledger.mem_iff.mp (List.mem_append_right _ member))
  have acknowledged : ticket ∈ s.acknowledged := by
    refine (h.outstanding ticket bound).resolve_right ?_
    rintro ⟨party, pc, stands, holds⟩
    rw [quiet pc (List.mem_of_getElem? stands)] at holds
    simp [Pc.ticket?] at holds
  have reached := List.mem_append.mpr (none ticket acknowledged)
  exact apart ticket reached ticket member rfl

/-- A run loses no acknowledged message in any of its states when each `msgctl(IPC_RMID)` of
its senders finds the receiver's queue empty of the run's messages; and once all calls have
returned, that is the only way to have lost none.
-/
theorem noneLost_of_harmless (process : Nat → Nat) (room : List Message → Message → Bool)
    (key : Int) (receiverQueue : Nat) (start s : System) (trace : List (System × Label))
    (started : Started key receiverQueue start)
    (run : Run (Step process room key receiverQueue) start trace s)
    : ((∀ state label, (state, label) ∈ trace → Harmless receiverQueue state label)
        → NoneLost receiverQueue s)
      ∧ ((∀ pc ∈ s.parties, pc = .idle)
        → NoneLost receiverQueue s
        → ∀ state label, (state, label) ∈ trace → Harmless receiverQueue state label) := by
  have accounted := accounted_of_run started run
  have found := discarded_eq_nil_iff started run
  exact ⟨fun harmless => accounted.noneLost (found.mpr harmless),
    fun quiet none => found.mp (accounted.discarded_eq_nil quiet none)⟩

/-- A kernel without queues. -/
def emptyKernel : Kernel := { ids := fun _ => none, queues := fun _ => none }

/-- A receiver and a sender in different processes, after `MSG_QueCreate(5)` gave id 9. -/
def twoProcesses : System :=
  {
    kernel := (msgQueCreate emptyKernel 5 9).2
    parties := [.idle, .idle]
    held := fun _ => false
    nextTicket := 0
    acknowledged := []
    delivered := []
    discarded := []
  }

theorem twoProcesses_started : Started 5 9 twoProcesses where
  obtained := ⟨emptyKernel, 9, by simp [emptyKernel], rfl⟩
  idle := by simp [twoProcesses]
  noTicket := rfl
  noHistory := ⟨rfl, rfl, rfl⟩

/-- One system call of the two processes, with a kernel that always has room. -/
abbrev FreeStep := Step id (fun _ _ => true) 5 9

def senderLocked : System :=
  {
    twoProcesses with
    parties := twoProcesses.parties.set 1 (.locked 1 [65])
    held := fun other => if other = id 1 then true else twoProcesses.held other
  }

def senderOpened : System :=
  { senderLocked with parties := senderLocked.parties.set 1 (.opened 9 1 [65]) }

/-- The sender's message is the only one in the queue. -/
def senderSent : System :=
  {
    senderOpened with
    kernel := {
      senderOpened.kernel with
      queues := fun queId =>
        if queId = 9 then some [⟨some 0, 1, [65]⟩] else senderOpened.kernel.queues queId
    }
    parties := senderOpened.parties.set 1 (.sent 9 0 0 (some 0))
    nextTicket := 1
  }

/-- The receiver has taken the message before the sender removes the queue. -/
def messageReceived : System :=
  {
    senderSent with
    kernel := {
      senderSent.kernel with
      queues := fun queId => if queId = 9 then some [] else senderSent.kernel.queues queId
    }
    delivered := [0]
  }

/-- What the sender's `msgctl` makes of a system. -/
def removeQueue (s : System) : System :=
  {
    s with
    kernel := s.kernel.msgctlRmid 9
    parties := s.parties.set 1 (.unlocking 0 0 (some 0))
    discarded := s.discarded ++ pendingTickets s.kernel 9
  }

/-- What the sender's last two calls, `msgctl` and the unlock, make of a system. -/
def finishSend (s : System) : System :=
  {
    removeQueue s with
    parties := (removeQueue s).parties.set 1 .idle
    held := fun other => if other = id 1 then false else (removeQueue s).held other
    acknowledged :=
      if sndResult 0 0 = 0 then
        (removeQueue s).acknowledged ++ [0]
      else
        (removeQueue s).acknowledged
  }

theorem senderSent_run
    : Run FreeStep twoProcesses
        [(twoProcesses, ⟨1, .lock⟩), (senderLocked, ⟨1, .msgget⟩), (senderOpened, ⟨1, .msgsnd⟩)]
        senderSent := by
  have locked : Run FreeStep twoProcesses [(twoProcesses, ⟨1, .lock⟩)] senderLocked :=
    Run.start.extend (.lock 1 [65] rfl rfl)
  have opened : Run FreeStep twoProcesses
      [(twoProcesses, ⟨1, .lock⟩), (senderLocked, ⟨1, .msgget⟩)] senderOpened :=
    locked.extend (.msggetFinds rfl rfl)
  exact opened.extend (.msgsndAccepts rfl rfl)

/-- The two remaining calls of the sender extend a run that has queued its message. -/
theorem finishSend_run {s : System} {trace : List (System × Label)}
    (run : Run FreeStep twoProcesses trace s)
    (sent : s.parties[1]? = some (.sent 9 0 0 (some 0)))
    : Run FreeStep twoProcesses
        (trace ++ [(s, ⟨1, .msgctl⟩)] ++ [(removeQueue s, ⟨1, .unlock⟩)]) (finishSend s) := by
  obtain ⟨bound, -⟩ := List.getElem?_eq_some_iff.mp sent
  have removed : Run FreeStep twoProcesses (trace ++ [(s, ⟨1, .msgctl⟩)]) (removeQueue s) :=
    run.extend (.msgctl sent)
  have unlocking : (removeQueue s).parties[1]? = some (.unlocking 0 0 (some 0)) :=
    List.getElem?_set_self bound
  exact removed.extend (.unlock unlocking)

/-- A send that runs undisturbed returns 0 and leaves its message nowhere. -/
theorem send_discards
    : ¬ ∀ trace s, Run FreeStep twoProcesses trace s → NoneLost 9 s := by
  intro always
  have lost := always _ _ (finishSend_run senderSent_run rfl) 0 (by decide)
  revert lost
  decide

/-- A receiver that runs between `msgsnd` and `msgctl` gets the message. -/
theorem noneLost_of_harmless_quickReceiver
    : (finishSend messageReceived).acknowledged = [0]
      ∧ NoneLost 9 (finishSend messageReceived) := by
  have received := senderSent_run.extend
    (show FreeStep senderSent ⟨0, .receive⟩ messageReceived from .receive 1 0 rfl rfl rfl)
  have run := finishSend_run received rfl
  refine ⟨rfl, (noneLost_of_harmless _ _ _ _ _ _ _ twoProcesses_started run).1 ?_⟩
  intro state label member removal
  simp only [List.cons_append, List.nil_append, List.mem_cons, Prod.mk.injEq,
    List.not_mem_nil, or_false] at member
  rcases member with ⟨-, rfl⟩ | ⟨-, rfl⟩ | ⟨-, rfl⟩ | ⟨-, rfl⟩ | ⟨rfl, rfl⟩ | ⟨-, rfl⟩ <;>
    first | contradiction | rfl

end Cvos.MsgQueue
