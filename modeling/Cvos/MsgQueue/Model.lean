import Cvos.Lib.Transition

/-! The System V message queues behind `msg.c`, and the calls of `MSG_QueSndMsg` and
`MSG_QueRevMsg` as steps of the parties that make them.
-/

namespace Cvos.MsgQueue

/-- A message in a kernel queue. The ticket numbers the successful `msgsnd` of the observed
run that put it there; the code does not see it.
-/
structure Message where
  ticket : Option Nat
  mType : Int
  mText : List UInt8
deriving DecidableEq, Repr

/-- The kernel's queues: the id behind each key, and the pending messages of each live id,
oldest first.
-/
structure Kernel where
  ids : Int → Option Nat
  queues : Nat → Option (List Message)

/-- `msgget` without `IPC_CREAT`. -/
def Kernel.msgget (k : Kernel) (key : Int) : Option Nat := k.ids key

/-- `msgget` with `IPC_CREAT`: an unknown key gets a new empty queue under the id `fresh`. -/
def Kernel.msggetCreate (k : Kernel) (key : Int) (fresh : Nat) : Nat × Kernel :=
  match k.ids key with
  | some queId => (queId, k)
  | none =>
      (fresh,
        {
          ids := fun other => if other = key then some fresh else k.ids other
          queues := fun id => if id = fresh then some [] else k.queues id
        })

/-- `msgsnd` with `IPC_NOWAIT`. It refuses a dead id, a message type below 1, and whatever
the kernel's limits (`room`) exclude.
-/
def Kernel.msgsnd (room : List Message → Message → Bool) (k : Kernel) (queId : Nat)
    (m : Message) : Option Kernel :=
  match k.queues queId with
  | none => none
  | some pending =>
      if 1 ≤ m.mType ∧ room pending m then
        some
          {
            k with
            queues := fun id => if id = queId then some (pending ++ [m]) else k.queues id
          }
      else
        none

/-- `msgrcv` for type 0 with `IPC_NOWAIT`: take the oldest pending message. -/
def Kernel.msgrcv (k : Kernel) (queId : Nat) : Option (Message × Kernel) :=
  match k.queues queId with
  | some (oldest :: rest) =>
      some
        (oldest,
          { k with queues := fun id => if id = queId then some rest else k.queues id })
  | _ => none

/-- `msgctl` with `IPC_RMID`: discard the id and all its pending messages. -/
def Kernel.msgctlRmid (k : Kernel) (queId : Nat) : Kernel :=
  {
    ids := fun key => if k.ids key = some queId then none else k.ids key
    queues := fun id => if id = queId then none else k.queues id
  }

/-- `MSG_QueCreate` when the kernel can create queues. -/
def msgQueCreate (k : Kernel) (ipcId : Int) (fresh : Nat) : Nat × Kernel :=
  k.msggetCreate ipcId fresh

/-- `MSG_QueRevMsg`: the result code, the message delivered (cut to `msgBodyLen` bytes of
text, as `MSG_NOERROR` asks) and the kernel after it.
-/
def msgQueRevMsg (k : Kernel) (queId : Int) (msgBodyLen : Nat) (errno : Int)
    : Int × Option Message × Kernel :=
  if queId < 0 then
    (-1, none, k)
  else
    match k.msgrcv queId.toNat with
    | none => (-errno, none, k)
    | some (m, k) =>
        let m := { m with mText := m.mText.take msgBodyLen }
        (m.mText.length, some m, k)

-----------------------------------------------------------------------------------------
-- Parties sharing the kernel
-----------------------------------------------------------------------------------------

/-- Where a party stands inside `MSG_QueSndMsg`: it holds `gMsgThrdLock` of its process, has
looked up the queue, has called `msgsnd`, or has called `msgctl` and goes on to unlock. The
ticket is that of the message its own `msgsnd` has queued.
-/
inductive Pc where
  | idle
  | locked (mType : Int) (mText : List UInt8)
  | opened (queId : Nat) (mType : Int) (mText : List UInt8)
  | sent (queId : Nat) (ret errno : Int) (ticket : Option Nat)
  | unlocking (ret errno : Int) (ticket : Option Nat)
deriving DecidableEq, Repr

/-- The kernel, the parties and the mutex of each process, with the tickets of the messages
whose `MSG_QueSndMsg` returned 0, of those returned by `MSG_QueRevMsg` and of those that a
queue removal discarded.
-/
structure System where
  kernel : Kernel
  parties : List Pc
  held : Nat → Bool
  nextTicket : Nat
  acknowledged : List Nat
  delivered : List Nat
  discarded : List Nat

inductive Action where
  | lock
  | msgget
  | msgsnd
  | msgctl
  | unlock
  | receive
deriving DecidableEq, Repr

structure Label where
  party : Nat
  action : Action
deriving DecidableEq, Repr

/-- Tickets of the messages of the run that are pending under an id. -/
def pendingTickets (k : Kernel) (queId : Nat) : List Nat :=
  ((k.queues queId).getD []).filterMap Message.ticket

/-- What `MSG_QueSndMsg` returns after its unlock. -/
def sndResult (ret errno : Int) : Int := if ret < 0 then -errno else ret

section Steps

variable (process : Nat → Nat) (room : List Message → Message → Bool) (key : Int)
  (receiverQueue : Nat)

/-- One system call of one party. The calls of `MSG_QueSndMsg` are separate steps, since
`gMsgThrdLock` excludes only parties of the same process; `MSG_QueRevMsg` makes one call.
-/
inductive Step : System → Label → System → Prop
  | lock {s party} (mType : Int) (mText : List UInt8)
    (idle : s.parties[party]? = some .idle) (free : s.held (process party) = false)
    : Step s ⟨party, .lock⟩
        {
          s with
          parties := s.parties.set party (.locked mType mText)
          held := fun other => if other = process party then true else s.held other
        }
  | msggetFinds {s party mType mText queId}
    (locked : s.parties[party]? = some (.locked mType mText))
    (found : s.kernel.msgget key = some queId)
    : Step s ⟨party, .msgget⟩
        { s with parties := s.parties.set party (.opened queId mType mText) }
  | msggetFails {s party mType mText errno}
    (locked : s.parties[party]? = some (.locked mType mText))
    (missing : s.kernel.msgget key = none) (failed : 0 < errno)
    : Step s ⟨party, .msgget⟩
        { s with parties := s.parties.set party (.unlocking (-2) errno none) }
  | msgsndAccepts {s party queId mType mText kernel}
    (opened : s.parties[party]? = some (.opened queId mType mText))
    (accepted
      : s.kernel.msgsnd room queId ⟨some s.nextTicket, mType, mText⟩ = some kernel)
    : Step s ⟨party, .msgsnd⟩
        {
          s with
          kernel
          parties := s.parties.set party (.sent queId 0 0 (some s.nextTicket))
          nextTicket := s.nextTicket + 1
        }
  | msgsndFails {s party queId mType mText errno}
    (opened : s.parties[party]? = some (.opened queId mType mText))
    (refused
      : s.kernel.msgsnd room queId ⟨some s.nextTicket, mType, mText⟩ = none)
    (failed : 0 < errno)
    : Step s ⟨party, .msgsnd⟩
        { s with parties := s.parties.set party (.sent queId (-1) errno none) }
  | msgctl {s party queId ret errno ticket}
    (sent : s.parties[party]? = some (.sent queId ret errno ticket))
    : Step s ⟨party, .msgctl⟩
        {
          s with
          kernel := s.kernel.msgctlRmid queId
          parties := s.parties.set party (.unlocking ret errno ticket)
          discarded := s.discarded ++ pendingTickets s.kernel queId
        }
  | unlock {s party ret errno ticket}
    (unlocking : s.parties[party]? = some (.unlocking ret errno ticket))
    : Step s ⟨party, .unlock⟩
        {
          s with
          parties := s.parties.set party .idle
          held := fun other => if other = process party then false else s.held other
          acknowledged :=
            if sndResult ret errno = 0 then
              s.acknowledged ++ ticket.toList
            else
              s.acknowledged
        }
  | receive {s party ret output kernel} (msgBodyLen : Nat) (errno : Int)
    (idle : s.parties[party]? = some .idle) (free : s.held (process party) = false)
    (returned : msgQueRevMsg s.kernel receiverQueue msgBodyLen errno = (ret, output, kernel))
    : Step s ⟨party, .receive⟩
        {
          s with
          kernel
          delivered := s.delivered ++ (output.bind Message.ticket).toList
        }

end Steps

/-- The system in which a receiver has just obtained its queue: no call is in progress, and
no message pending anywhere belongs to the run yet.
-/
structure Started (key : Int) (receiverQueue : Nat) (s : System) : Prop where
  obtained
    : ∃ before fresh,
        (∀ queId pending, before.queues queId = some pending → ∀ m ∈ pending, m.ticket = none)
        ∧ msgQueCreate before key fresh = (receiverQueue, s.kernel)
  idle : ∀ pc ∈ s.parties, pc = .idle
  noTicket : s.nextTicket = 0
  noHistory : s.acknowledged = [] ∧ s.delivered = [] ∧ s.discarded = []

/-- Every acknowledged message has been returned to the receiver or is still pending. -/
def NoneLost (receiverQueue : Nat) (s : System) : Prop :=
  ∀ ticket ∈ s.acknowledged,
    ticket ∈ s.delivered ∨ ticket ∈ pendingTickets s.kernel receiverQueue

end Cvos.MsgQueue
