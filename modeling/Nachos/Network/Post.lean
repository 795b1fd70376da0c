import Nachos.Lib.Bytes
import Nachos.Threads.Synch

/-!
# Mail from one machine to another

`PostOffice::Send` and `PostalDelivery` of `network/post.cc` over `Network` of `machine/network.cc`:
any number of threads of machine `A` send to machine `B`.  A letter is packed twice, behind a
`MailHeader` and behind a `PacketHeader`, and unpacked twice.  The host's datagram socket is a queue
(`wire`); a poll of `CheckPktAvail` may find nothing although something is under way.  `Lock` and
`Condition::Signal` of `threads/synch.cc` do nothing, so `sendLock` and the lock of a mailbox are left
out.  Memory that was not written holds anything (`junk`).

`sent` is history: the letters in the order of their `Network::Send`, those that were lost included.

* `Pipeline` — the letters that have arrived, then the one in the hands of the postal worker, the one
  in `inbox`, and those on the wire, are a subsequence of those sent.
* `step_pipeline`, `mail_in_order` — every step, and every run.
-/

set_option autoImplicit false

namespace Nachos

open Transition

def MaxWireSize : Nat := 64
/-- `sizeof(PacketHeader)` and `sizeof(MailHeader)`. -/
def sizeofHeader : Nat := 12
def MaxPacketSize : Nat := MaxWireSize - sizeofHeader
def MaxMailSize : Nat := MaxPacketSize - sizeofHeader
/-- The post office of `threads/system.cc` has 10 boxes on every machine. -/
def numBoxes : Nat := 10

structure PacketHeader where
  toAddr : Word
  fromAddr : Word
  length : Word
  deriving DecidableEq, Repr

structure MailHeader where
  toAddr : Word
  fromAddr : Word
  length : Word
  deriving DecidableEq, Repr

/-- A header of three words at the start of a buffer. -/
def putHeader (ws : List Word) (buffer : Nat → Byte) : Nat → Byte :=
  Bytes.copy (Bytes.ofWords ws) 0 buffer 0 sizeofHeader

def PacketHeader.words (h : PacketHeader) : List Word := [h.toAddr, h.fromAddr, h.length]

def MailHeader.words (h : MailHeader) : List Word := [h.toAddr, h.fromAddr, h.length]

/-- `*(PacketHeader *)buffer`. -/
def packetHeaderAt (b : Nat → Byte) : PacketHeader := ⟨Bytes.wordAt b 0, Bytes.wordAt b 4, Bytes.wordAt b 8⟩

/-- `*(MailHeader *)buffer`. -/
def mailHeaderAt (b : Nat → Byte) : MailHeader := ⟨Bytes.wordAt b 0, Bytes.wordAt b 4, Bytes.wordAt b 8⟩

/-- What a thread asks to be sent: a header whose box is in range, and its data. -/
structure Letter where
  mailHdr : MailHeader
  data : List Byte
  length : data.length = mailHdr.length.toNat
  short : mailHdr.length.toNat ≤ MaxMailSize
  box : mailHdr.toAddr.toNat < numBoxes

/-- `class Mail`. -/
structure Mail where
  pktHdr : PacketHeader
  mailHdr : MailHeader
  data : Nat → Byte

namespace Post

/-- A thread of machine `A`: outside of `Send`, before `network->Send`, or in `messageSent->P()`. -/
inductive Sender where
  | idle
  | ready (pktHdr : PacketHeader) (buffer : Nat → Byte) (letter : Letter)
  | waiting

/-- The postal worker of machine `B`: in `messageAvailable->P()`, before `network->Receive`, or before
`Put`. -/
inductive Worker where
  | atP
  | ready
  | received (pktHdr : PacketHeader)

structure State where
  sender : Tid → Sender
  messageSent : Semaphore
  sendDones : Nat
  wire : List (Nat → Byte)
  inHdr : PacketHeader
  inbox : Nat → Byte
  messageAvailable : Semaphore
  worker : Worker
  buffer : Nat → Byte
  boxes : Nat → List Mail
  /-- an `ASSERT` has failed -/
  failed : Bool
  sent : List Letter

inductive Event where
  | send (t : Tid) (pktHdr : PacketHeader) (letter : Letter) (junk : Nat → Byte)
  | netSend (t : Tid) (lost : Bool) (junk : Nat → Byte)
  | sendDone
  | await (t : Tid)
  | checkPktAvail (avail : Bool) (junk : Nat → Byte)
  | postalDelivery (junk : Nat → Byte)

/-- The thread of the postal worker on machine `B`. -/
def postalWorker : Tid := 1

/-! ## Machine A -/

/-- `PostOffice::Send`, up to `sendLock->Acquire()`: the packet header and the buffer. -/
def pack (A : Word) (pktHdr : PacketHeader) (letter : Letter) (junk : Nat → Byte) :
    PacketHeader × (Nat → Byte) :=
  ({ pktHdr with fromAddr := A, length := letter.mailHdr.length + BitVec.ofNat 32 sizeofHeader },
    Bytes.copy (fun i => letter.data.getD i 0) 0 (putHeader letter.mailHdr.words junk) sizeofHeader
      letter.mailHdr.length.toNat)

/-- The buffer that `Network::Send` puts into the socket. -/
def wireBuffer (hdr : PacketHeader) (data junk : Nat → Byte) : Nat → Byte :=
  Bytes.copy data 0 (putHeader hdr.words junk) sizeofHeader hdr.length.toNat

/-- `Network::Send`; `sendBusy` is never set. -/
def netSend (A : Word) (s : State) (t : Tid) (lost : Bool) (junk : Nat → Byte) : Option State :=
  match s.sender t with
  | .ready hdr data letter =>
      if 0 < hdr.length.toNat ∧ hdr.length.toNat ≤ MaxPacketSize ∧ hdr.fromAddr = A then
        some { s with
          sender := Function.update s.sender t .waiting
          sendDones := s.sendDones + 1
          wire := if lost then s.wire else s.wire ++ [wireBuffer hdr data junk]
          sent := s.sent ++ [letter] }
      else
        some { s with failed := true }
  | _ => none

/-- `Network::SendDone` and `PostOffice::PacketSent`. -/
def sendDone (s : State) : Option State :=
  if s.sendDones = 0 then none
  else some { s with sendDones := s.sendDones - 1, messageSent := s.messageSent.v.1 }

/-- One turn of `messageSent->P()`. -/
def await (s : State) (t : Tid) : Option State :=
  match s.sender t with
  | .waiting =>
      if t ∈ s.messageSent.queue then
        none
      else
        match s.messageSent.p t with
        | (sem, true) => some { s with messageSent := sem, sender := Function.update s.sender t .idle }
        | (sem, false) => some { s with messageSent := sem }
  | _ => none

/-! ## Machine B -/

/-- `Network::CheckPktAvail`; `avail` is what `PollSocket` finds. -/
def checkPktAvail (B : Word) (s : State) (avail : Bool) (junk : Nat → Byte) : Option State :=
  if s.inHdr.length ≠ 0 then
    some s
  else if !avail then
    some s
  else
    match s.wire with
    | [] => none
    | packet :: wire =>
        let buffer := Bytes.copy packet 0 junk 0 MaxWireSize
        let inHdr := packetHeaderAt buffer
        if inHdr.toAddr = B ∧ inHdr.length.toNat ≤ MaxPacketSize then
          some { s with
            wire := wire, inHdr := inHdr, inbox := Bytes.copy buffer sizeofHeader s.inbox 0 inHdr.length.toNat
            messageAvailable := s.messageAvailable.v.1 }
        else
          some { s with failed := true }

/-- `Network::Receive(buffer)`. -/
def receive (s : State) : State :=
  { s with
    worker := .received s.inHdr, inHdr := { s.inHdr with length := 0 }
    buffer := if s.inHdr.length ≠ 0 then Bytes.copy s.inbox 0 s.buffer 0 s.inHdr.length.toNat else s.buffer }

/-- `boxes[mailHdr.to].Put`. -/
def put (s : State) (mail : Mail) : State :=
  { s with
    worker := .atP
    boxes := Function.update s.boxes mail.mailHdr.toAddr.toNat (s.boxes mail.mailHdr.toAddr.toNat ++ [mail]) }

/-- The next step of `PostOffice::PostalDelivery`. -/
def postalDelivery (s : State) (junk : Nat → Byte) : Option State :=
  match s.worker with
  | .atP =>
      if postalWorker ∈ s.messageAvailable.queue then
        none
      else
        match s.messageAvailable.p postalWorker with
        | (sem, true) => some { s with messageAvailable := sem, worker := .ready }
        | (sem, false) => some { s with messageAvailable := sem }
  | .ready => some (receive s)
  | .received pktHdr =>
      let mailHdr := mailHeaderAt s.buffer
      if 0 ≤ mailHdr.toAddr.toInt ∧ mailHdr.toAddr.toInt < numBoxes ∧ mailHdr.length.toNat ≤ MaxMailSize then
        some (put s ⟨pktHdr, mailHdr, Bytes.copy s.buffer sizeofHeader junk 0 mailHdr.length.toNat⟩)
      else
        some { s with failed := true }

/-- Nothing happens after an assertion has failed. -/
def step (A B : Word) (s : State) (e : Event) : Option State :=
  if s.failed then none
  else
    match e with
    | .send t pktHdr letter junk =>
        match s.sender t with
        | .idle =>
            let (hdr, buffer) := pack A { pktHdr with toAddr := B } letter junk
            some { s with sender := Function.update s.sender t (.ready hdr buffer letter) }
        | _ => none
    | .netSend t lost junk => netSend A s t lost junk
    | .sendDone => sendDone s
    | .await t => await s t
    | .checkPktAvail avail junk => checkPktAvail B s avail junk
    | .postalDelivery junk => postalDelivery s junk

/-- Both machines after `PostOffice::PostOffice`. -/
structure Initial (s : State) : Prop where
  sender : ∀ t, s.sender t = .idle
  wire : s.wire = []
  inHdr : s.inHdr.length = 0
  messageAvailable : s.messageAvailable = ⟨0, []⟩
  worker : s.worker = .atP
  boxes : ∀ k, s.boxes k = []
  failed : s.failed = false
  sent : s.sent = []

def system (A B : Word) : System State Event where
  init := Initial
  step := step A B

/-! ## Packing and unpacking -/

section Packing

variable {A B : Word} {letter : Letter} {b junk : Nat → Byte}

/-- The number of bytes of the data. -/
def size (letter : Letter) : Nat := letter.mailHdr.length.toNat

/-- The mail header and the data, one after the other. -/
def packed (letter : Letter) : Nat → Byte :=
  Bytes.copy (fun i => letter.data.getD i 0) 0 (putHeader letter.mailHdr.words (fun _ => 0)) sizeofHeader (size letter)

/-- A buffer with a packed letter. -/
def Encodes (letter : Letter) (b : Nat → Byte) : Prop := ∀ i < sizeofHeader + size letter, b i = packed letter i

/-- The packet header of a letter. -/
def hdrOf (A B : Word) (letter : Letter) : PacketHeader :=
  ⟨B, A, letter.mailHdr.length + BitVec.ofNat 32 sizeofHeader⟩

/-- A packet with a letter. -/
def Wired (A B : Word) (letter : Letter) (b : Nat → Byte) : Prop :=
  (∀ i < sizeofHeader, b i = Bytes.ofWords (hdrOf A B letter).words i) ∧
  ∀ i < sizeofHeader + size letter, b (sizeofHeader + i) = packed letter i

theorem size_le (letter : Letter) : size letter ≤ 40 := letter.short

theorem hdrOf_length (A B : Word) (letter : Letter) :
    (hdrOf A B letter).length.toNat = sizeofHeader + size letter := by
  have hle := size_le letter
  unfold size at hle ⊢
  rw [hdrOf, BitVec.toNat_add, BitVec.toNat_ofNat, sizeofHeader]
  omega

theorem hdrOf_length_ne_zero (A B : Word) (letter : Letter) : (hdrOf A B letter).length ≠ 0 := by
  intro h0
  have hlen := hdrOf_length A B letter
  rw [h0, sizeofHeader] at hlen
  simp at hlen
  omega

theorem putHeader_apply {ws : List Word} {i : Nat} (hi : i < sizeofHeader) : putHeader ws b i = Bytes.ofWords ws i := by
  rw [putHeader, Bytes.copy_of_mem _ _ _ (Nat.zero_le i) (by omega)]
  simp

/-- The three words of a header. -/
theorem words_eq {x y z : Word} (h : ∀ i < sizeofHeader, b i = Bytes.ofWords [x, y, z] i) :
    Bytes.wordAt b 0 = x ∧ Bytes.wordAt b 4 = y ∧ Bytes.wordAt b 8 = z := by
  have hword : ∀ k < 3, Bytes.wordAt b (4 * k) = [x, y, z].getD k 0 := by
    intro k hk
    rw [← Bytes.wordAt_ofWords]
    apply Bytes.wordAt_congr
    intro i hi
    exact h _ (by rw [sizeofHeader]; omega)
  exact ⟨hword 0 (by decide), hword 1 (by decide), hword 2 (by decide)⟩

theorem packed_header {i : Nat} (hi : i < sizeofHeader) : packed letter i = Bytes.ofWords letter.mailHdr.words i := by
  rw [packed, Bytes.copy_of_not_mem _ _ _ (by omega), putHeader_apply hi]

theorem packed_data {i : Nat} (hi : i < size letter) : packed letter (sizeofHeader + i) = letter.data.getD i 0 := by
  rw [packed, Bytes.copy_of_mem _ _ _ (by omega) (by omega)]
  simp

theorem Encodes.mailHeader (h : Encodes letter b) : mailHeaderAt b = letter.mailHdr := by
  obtain ⟨h0, h4, h8⟩ := words_eq (b := b) (x := letter.mailHdr.toAddr) (y := letter.mailHdr.fromAddr)
    (z := letter.mailHdr.length) (fun i hi => (h i (by omega)).trans (packed_header hi))
  rw [mailHeaderAt, h0, h4, h8]

theorem Wired.packetHeader (h : Wired A B letter b) : packetHeaderAt b = hdrOf A B letter := by
  obtain ⟨h0, h4, h8⟩ := words_eq h.1
  rw [packetHeaderAt, h0, h4, h8]

/-- A copy of a packed letter. -/
theorem Encodes.copy {dst : Nat → Byte} (h : Encodes letter b) :
    Encodes letter (Bytes.copy b 0 dst 0 (sizeofHeader + size letter)) := by
  intro i hi
  rw [Bytes.copy_of_mem _ _ _ (Nat.zero_le i) (by omega)]
  simpa using h i hi

theorem pack_spec (pktHdr : PacketHeader) :
    (pack A { pktHdr with toAddr := B } letter junk).1 = hdrOf A B letter ∧
      Encodes letter (pack A { pktHdr with toAddr := B } letter junk).2 := by
  refine ⟨rfl, ?_⟩
  intro i hi
  show Bytes.copy (fun i => letter.data.getD i 0) 0 (putHeader letter.mailHdr.words junk) sizeofHeader (size letter) i =
    packed letter i
  by_cases hh : i < sizeofHeader
  · rw [packed_header hh, Bytes.copy_of_not_mem _ _ _ (by omega), putHeader_apply hh]
  · rw [packed, Bytes.copy_of_mem _ _ _ (by omega) hi, Bytes.copy_of_mem _ _ _ (by omega) hi]

theorem wireBuffer_wired (h : Encodes letter b) : Wired A B letter (wireBuffer (hdrOf A B letter) b junk) := by
  refine ⟨?_, ?_⟩
  · intro i hi
    rw [wireBuffer, Bytes.copy_of_not_mem _ _ _ (by omega), putHeader_apply hi]
  · intro i hi
    rw [wireBuffer, hdrOf_length, Bytes.copy_of_mem _ _ _ (by omega) (by omega)]
    simpa using h i hi

/-- What arrives is what was put on the wire. -/
theorem Wired.arrives (h : Wired A B letter b) (junk : Nat → Byte) :
    Wired A B letter (Bytes.copy b 0 junk 0 MaxWireSize) := by
  have hle := size_le letter
  have hsize : sizeofHeader = 12 := rfl
  have hmax : MaxWireSize = 64 := rfl
  refine ⟨?_, ?_⟩
  · intro i hi
    rw [Bytes.copy_of_mem _ _ _ (Nat.zero_le i) (by omega)]
    simpa using h.1 i hi
  · intro i hi
    rw [Bytes.copy_of_mem _ _ _ (Nat.zero_le _) (by omega)]
    simpa using h.2 i hi

theorem Wired.encodes {dst : Nat → Byte} (h : Wired A B letter b) :
    Encodes letter (Bytes.copy b sizeofHeader dst 0 (hdrOf A B letter).length.toNat) := by
  intro i hi
  rw [hdrOf_length, Bytes.copy_of_mem _ _ _ (Nat.zero_le i) (by omega)]
  simpa using h.2 i hi

end Packing

/-! ## The way of a letter -/

/-- A mail in a box is a letter from machine `A`. -/
def Delivered (A : Word) (letter : Letter) (mail : Mail) : Prop :=
  mail.mailHdr = letter.mailHdr ∧ (∀ i < letter.mailHdr.length.toNat, letter.data[i]? = some (mail.data i)) ∧
    mail.pktHdr.fromAddr = A

/-- The letters for box `k`. -/
def forBox (k : Nat) (l : List Letter) : List Letter := l.filter (fun x => decide (x.mailHdr.toAddr.toNat = k))

/-- The letters on their way, in the order in which they were sent. -/
structure Pipeline (A B : Word) (s : State) (arrived : List Letter) (atWorker inBox : Option Letter)
    (onWire : List Letter) : Prop where
  failed : s.failed = false
  senders : ∀ t hdr b letter, s.sender t = .ready hdr b letter → hdr = hdrOf A B letter ∧ Encodes letter b
  wire : List.Forall₂ (Wired A B) onWire s.wire
  inbox : ∀ letter, inBox = some letter → s.inHdr = hdrOf A B letter ∧ Encodes letter s.inbox
  empty : inBox = none → s.inHdr.length = 0
  worker : ∀ letter, atWorker = some letter → s.worker = .received (hdrOf A B letter) ∧ Encodes letter s.buffer
  idle : atWorker = none → s.worker = .atP ∨ s.worker = .ready
  available : inBox ≠ none → s.worker ≠ .ready → s.messageAvailable.value = 1
  unavailable : inBox = none ∨ s.worker = .ready → s.messageAvailable.value = 0
  ready : s.worker = .ready → inBox ≠ none
  boxes : ∀ k, List.Forall₂ (Delivered A) (forBox k arrived) (s.boxes k)
  order : (arrived ++ atWorker.toList ++ inBox.toList ++ onWire).Sublist s.sent

section Steps

variable {A B : Word} {s s' : State} {arrived onWire : List Letter} {atWorker inBox : Option Letter}
  {t : Tid} {junk : Nat → Byte}

/-- A worker that has received nothing has no letter. -/
theorem Pipeline.atWorker_eq_none (h : Pipeline A B s arrived atWorker inBox onWire)
    (hw : ∀ hdr, s.worker ≠ .received hdr) : atWorker = none := by
  cases ha : atWorker with
  | none => rfl
  | some letter => exact absurd (h.worker letter ha).1 (hw _)

/-- What a step leaves of the senders. -/
theorem senders_update {x : Sender} (h : Pipeline A B s arrived atWorker inBox onWire)
    (hx : ∀ hdr b letter, x = .ready hdr b letter → hdr = hdrOf A B letter ∧ Encodes letter b) :
    ∀ u hdr b letter, Function.update s.sender t x u = .ready hdr b letter →
      hdr = hdrOf A B letter ∧ Encodes letter b := by
  intro u hdr b letter hu
  rcases eq_or_ne u t with rfl | hne
  · rw [Function.update_self] at hu
    exact hx hdr b letter hu
  · rw [Function.update_of_ne hne] at hu
    exact h.senders u hdr b letter hu

/-- `Network::Send` puts the letter behind those on the wire, or loses it. -/
theorem netSend_pipeline {lost : Bool} (h : Pipeline A B s arrived atWorker inBox onWire)
    (he : netSend A s t lost junk = some s') : ∃ onWire', Pipeline A B s' arrived atWorker inBox onWire' := by
  unfold netSend at he
  cases hs : s.sender t with
  | idle => simp only [hs, reduceCtorEq] at he
  | waiting => simp only [hs, reduceCtorEq] at he
  | ready hdr data letter =>
    obtain ⟨rfl, henc⟩ := h.senders t hdr data letter hs
    have hle := size_le letter
    rw [hs] at he
    simp only [hdrOf_length] at he
    rw [if_pos ⟨by rw [sizeofHeader]; omega, by rw [sizeofHeader, MaxPacketSize, MaxWireSize, sizeofHeader]; omega,
      rfl⟩] at he
    cases he
    have hsenders := senders_update (t := t) (x := .waiting) h nofun
    cases lost with
    | true =>
      refine ⟨onWire, h.failed, hsenders, h.wire, h.inbox, h.empty, h.worker, h.idle, h.available, h.unavailable, h.ready,
        h.boxes, ?_⟩
      exact h.order.trans (List.sublist_append_left _ _)
    | false =>
      refine ⟨onWire ++ [letter], h.failed, hsenders, ?_, h.inbox, h.empty, h.worker, h.idle, h.available, h.unavailable,
        h.ready, h.boxes, ?_⟩
      · exact List.rel_append h.wire (.cons (wireBuffer_wired henc) .nil)
      · rw [← List.append_assoc]
        exact h.order.append_right [letter]

/-- `CheckPktAvail` moves the first letter of the wire to `inbox`, if that is empty. -/
theorem checkPktAvail_pipeline {avail : Bool} (h : Pipeline A B s arrived atWorker inBox onWire)
    (he : checkPktAvail B s avail junk = some s') :
    ∃ inBox' onWire', Pipeline A B s' arrived atWorker inBox' onWire' := by
  unfold checkPktAvail at he
  split at he
  · cases he
    exact ⟨inBox, onWire, h⟩
  · rename_i hempty
    split at he
    · cases he
      exact ⟨inBox, onWire, h⟩
    · -- the length marks an empty `inbox`
      have hnone : inBox = none := by
        cases hb : inBox with
        | none => rfl
        | some letter =>
          have hlen := hdrOf_length_ne_zero A B letter
          rw [← (h.inbox letter hb).1] at hlen
          exact absurd hlen hempty
      subst hnone
      cases hw : s.wire with
      | nil => simp only [hw, reduceCtorEq] at he
      | cons packet wire =>
        rw [hw] at he
        have hwire := h.wire
        rw [hw] at hwire
        obtain ⟨letter, rest, hwired, hrest, rfl⟩ := List.forall₂_cons_right_iff.1 hwire
        have harrives := hwired.arrives junk
        have hle := size_le letter
        simp only [harrives.packetHeader] at he
        rw [if_pos ⟨rfl, by rw [hdrOf_length, sizeofHeader, MaxPacketSize, MaxWireSize, sizeofHeader]; omega⟩] at he
        cases he
        have hnotReady : s.worker ≠ .ready := fun hr => h.ready hr rfl
        have hzero : s.messageAvailable.value = 0 := h.unavailable (.inl rfl)
        refine ⟨some letter, rest, h.failed, h.senders, hrest, ?_, nofun, h.worker, h.idle, ?_, ?_, fun _ => nofun,
          h.boxes, ?_⟩
        · intro x hx
          cases hx
          exact ⟨rfl, harrives.encodes⟩
        · intro _ _
          rw [Semaphore.v_value, hzero]
          rfl
        · rintro (hb | hr)
          · cases hb
          · exact absurd hr hnotReady
        · have horder := h.order
          simpa using horder

/-- The postal worker goes on when there is a letter in `inbox`. -/
theorem await_pipeline (h : Pipeline A B s arrived atWorker inBox onWire) (hw : s.worker = .atP)
    (hz : s.messageAvailable.value ≠ 0) :
    Pipeline A B { s with messageAvailable := { s.messageAvailable with value := s.messageAvailable.value - 1 }
                          worker := .ready } arrived none inBox onWire := by
  have hsome : inBox ≠ none := fun hnone => hz (h.unavailable (.inl hnone))
  have hnone := h.atWorker_eq_none (by rw [hw]; nofun)
  subst hnone
  have hone : s.messageAvailable.value = 1 := h.available hsome (by rw [hw]; nofun)
  refine ⟨h.failed, h.senders, h.wire, h.inbox, h.empty, nofun, fun _ => .inr rfl, fun _ hne => absurd rfl hne, ?_,
    fun _ => hsome, h.boxes, h.order⟩
  intro _
  rw [hone]
  rfl

/-- `Network::Receive` takes the letter from `inbox`. -/
theorem receive_pipeline (h : Pipeline A B s arrived atWorker inBox onWire) (hw : s.worker = .ready) :
    ∃ letter, Pipeline A B (receive s) arrived (some letter) none onWire := by
  obtain ⟨letter, hb⟩ := Option.ne_none_iff_exists'.1 (h.ready hw)
  obtain ⟨hhdr, henc⟩ := h.inbox letter hb
  have hlen := hdrOf_length A B letter
  have hne : s.inHdr.length ≠ 0 := by
    rw [hhdr]
    exact hdrOf_length_ne_zero A B letter
  have hnone := h.atWorker_eq_none (by rw [hw]; nofun)
  subst hnone hb
  refine ⟨letter, h.failed, h.senders, h.wire, nofun, fun _ => rfl, ?_, nofun, fun hne => absurd rfl hne,
    fun _ => h.unavailable (.inr hw), nofun, h.boxes, ?_⟩
  · intro x hx
    cases hx
    refine ⟨congrArg Worker.received hhdr, ?_⟩
    show Encodes letter (if s.inHdr.length ≠ 0 then _ else _)
    rw [if_pos hne, hhdr, hlen]
    exact henc.copy
  · have horder := h.order
    show List.Sublist _ s.sent
    simpa using horder

theorem forBox_snoc (k : Nat) (l : List Letter) (letter : Letter) :
    forBox k (l ++ [letter]) = forBox k l ++ (if letter.mailHdr.toAddr.toNat = k then [letter] else []) := by
  by_cases hk : letter.mailHdr.toAddr.toNat = k
  · simp [forBox, hk]
  · simp [forBox, hk]

/-- `Put` appends the letter to its box. -/
theorem put_pipeline {letter : Letter} (h : Pipeline A B s arrived (some letter) inBox onWire) :
    Pipeline A B (put s ⟨hdrOf A B letter, letter.mailHdr,
      Bytes.copy s.buffer sizeofHeader junk 0 letter.mailHdr.length.toNat⟩) (arrived ++ [letter]) none inBox onWire := by
  obtain ⟨hw, henc⟩ := h.worker letter rfl
  have hnotReady : s.worker ≠ .ready := by
    rw [hw]
    nofun
  refine ⟨h.failed, h.senders, h.wire, h.inbox, h.empty, nofun, fun _ => .inl rfl,
    fun hb _ => h.available hb hnotReady, ?_, nofun, ?_, ?_⟩
  · rintro (hb | hr)
    · exact h.unavailable (.inl hb)
    · cases hr
  · intro k
    have hmail : Delivered A letter ⟨hdrOf A B letter, letter.mailHdr,
        Bytes.copy s.buffer sizeofHeader junk 0 letter.mailHdr.length.toNat⟩ := by
      refine ⟨rfl, ?_, rfl⟩
      intro i hi
      have hdata : s.buffer (sizeofHeader + i) = letter.data.getD i 0 := by
        rw [henc _ (by unfold size; omega), packed_data hi]
      show _ = some (Bytes.copy s.buffer sizeofHeader junk 0 letter.mailHdr.length.toNat i)
      rw [Bytes.copy_of_mem _ _ _ (Nat.zero_le i) (by omega), Nat.sub_zero, hdata, List.getD_eq_getElem?_getD,
        List.getElem?_eq_getElem (by rw [letter.length]; exact hi), Option.getD_some]
    rw [forBox_snoc]
    by_cases hk : letter.mailHdr.toAddr.toNat = k
    · subst hk
      rw [if_pos rfl]
      simp only [put, Function.update_self]
      exact List.rel_append (h.boxes _) (.cons hmail .nil)
    · rw [if_neg hk, List.append_nil]
      simp only [put, Function.update_of_ne (Ne.symm hk)]
      exact h.boxes k
  · have horder := h.order
    show List.Sublist _ s.sent
    simpa using horder

/-- The postal worker takes the letter in `inbox`, and puts it into its box. -/
theorem postalDelivery_pipeline (h : Pipeline A B s arrived atWorker inBox onWire)
    (he : postalDelivery s junk = some s') :
    ∃ arrived' atWorker' inBox', Pipeline A B s' arrived' atWorker' inBox' onWire := by
  unfold postalDelivery at he
  cases hw : s.worker with
  | atP =>
    rw [hw] at he
    simp only at he
    split at he
    · cases he
    · by_cases hz : s.messageAvailable.value = 0
      · rw [Semaphore.p_zero hz, ← hw] at he
        cases he
        exact ⟨arrived, atWorker, inBox, h.failed, h.senders, h.wire, h.inbox, h.empty, h.worker, h.idle, h.available,
          h.unavailable, h.ready, h.boxes, h.order⟩
      · rw [Semaphore.p_pos hz] at he
        cases he
        exact ⟨arrived, none, inBox, await_pipeline h hw hz⟩
  | ready =>
    rw [hw] at he
    cases he
    obtain ⟨letter, hp⟩ := receive_pipeline h hw
    exact ⟨arrived, some letter, none, hp⟩
  | received pktHdr =>
    obtain ⟨letter, ha⟩ : ∃ letter, atWorker = some letter := by
      cases ha : atWorker with
      | some letter => exact ⟨letter, rfl⟩
      | none =>
        rcases h.idle ha with hi | hi
        · rw [hw] at hi
          cases hi
        · rw [hw] at hi
          cases hi
    subst ha
    obtain ⟨hr, henc⟩ := h.worker letter rfl
    rw [hw] at hr
    cases hr
    have hbox : 0 ≤ letter.mailHdr.toAddr.toInt ∧ letter.mailHdr.toAddr.toInt < numBoxes := by
      have hlt := letter.box
      rw [numBoxes] at hlt ⊢
      rw [BitVec.toInt_eq_toNat_of_lt (by omega)]
      omega
    rw [hw] at he
    simp only [henc.mailHeader] at he
    rw [if_pos ⟨hbox.1, hbox.2, letter.short⟩] at he
    cases he
    exact ⟨arrived ++ [letter], none, inBox, put_pipeline h⟩

/-- **Every step.** -/
theorem step_pipeline {e : Event} (h : Pipeline A B s arrived atWorker inBox onWire) (he : step A B s e = some s') :
    ∃ arrived' atWorker' inBox' onWire', Pipeline A B s' arrived' atWorker' inBox' onWire' := by
  unfold step at he
  rw [if_neg (by simp [h.failed])] at he
  cases e with
  | send t pktHdr letter junk =>
    cases hs : s.sender t with
    | ready => simp only [hs, reduceCtorEq] at he
    | waiting => simp only [hs, reduceCtorEq] at he
    | idle =>
      simp only [hs, Option.some.injEq] at he
      subst he
      refine ⟨arrived, atWorker, inBox, onWire, h.failed, senders_update h ?_, h.wire, h.inbox, h.empty, h.worker, h.idle,
        h.available, h.unavailable, h.ready, h.boxes, h.order⟩
      intro hdr b x hx
      cases hx
      exact pack_spec pktHdr
  | netSend t lost junk =>
    obtain ⟨onWire', hp⟩ := netSend_pipeline h he
    exact ⟨arrived, atWorker, inBox, onWire', hp⟩
  | sendDone =>
    simp only [sendDone] at he
    split at he
    · cases he
    · cases he
      exact ⟨arrived, atWorker, inBox, onWire, h.failed, h.senders, h.wire, h.inbox, h.empty, h.worker, h.idle,
        h.available, h.unavailable, h.ready, h.boxes, h.order⟩
  | await t =>
    simp only [await] at he
    split at he
    · split at he
      · cases he
      · split at he
        · cases he
          exact ⟨arrived, atWorker, inBox, onWire, h.failed, senders_update h nofun, h.wire, h.inbox, h.empty, h.worker,
            h.idle, h.available, h.unavailable, h.ready, h.boxes, h.order⟩
        · cases he
          exact ⟨arrived, atWorker, inBox, onWire, h.failed, h.senders, h.wire, h.inbox, h.empty, h.worker, h.idle,
            h.available, h.unavailable, h.ready, h.boxes, h.order⟩
    · cases he
  | checkPktAvail avail junk =>
    obtain ⟨inBox', onWire', hp⟩ := checkPktAvail_pipeline h he
    exact ⟨arrived, atWorker, inBox', onWire', hp⟩
  | postalDelivery junk =>
    obtain ⟨arrived', atWorker', inBox', hp⟩ := postalDelivery_pipeline h he
    exact ⟨arrived', atWorker', inBox', onWire, hp⟩

theorem initial_pipeline (h : Initial s) : Pipeline A B s [] none none [] := by
  refine ⟨h.failed, ?_, by rw [h.wire]; exact .nil, nofun, fun _ => h.inHdr, nofun, fun _ => .inl h.worker,
    fun hne => absurd rfl hne, ?_, ?_, ?_, List.nil_sublist _⟩
  · intro t hdr b letter ht
    rw [h.sender t] at ht
    cases ht
  · intro _
    rw [h.messageAvailable]
  · intro hr
    rw [h.worker] at hr
    cases hr
  · intro k
    rw [h.boxes k]
    exact .nil

end Steps

end Post

open Post in
/-- **Mail is delivered in order, uncorrupted and at most once**, for any number of threads that send
from machine `A` to machine `B`, whatever is lost and however the polls and the postal worker are
interleaved with them: the mails in a box are a subsequence of the letters sent to it, with the same
mail header and data and from machine `A`; and no assertion fails. -/
theorem mail_in_order {A B : Word} {s : Post.State} (h : (Post.system A B).Reachable s) :
    s.failed = false ∧
    ∀ k < numBoxes, ∃ letters, letters.Sublist (forBox k s.sent) ∧ List.Forall₂ (Delivered A) letters (s.boxes k) := by
  have hinv : ∃ arrived atWorker inBox onWire, Pipeline A B s arrived atWorker inBox onWire := by
    refine h.invariant (I := fun s => ∃ arrived atWorker inBox onWire, Pipeline A B s arrived atWorker inBox onWire)
      ?_ ?_
    · exact fun s hs => ⟨[], none, none, [], initial_pipeline hs⟩
    · rintro s e s' - ⟨arrived, atWorker, inBox, onWire, hp⟩ he
      exact step_pipeline hp he
  obtain ⟨arrived, atWorker, inBox, onWire, hp⟩ := hinv
  refine ⟨hp.failed, ?_⟩
  intro k _
  refine ⟨forBox k arrived, List.Sublist.filter _ ?_, hp.boxes k⟩
  have hprefix : arrived.Sublist (arrived ++ atWorker.toList ++ inBox.toList ++ onWire) := by
    rw [List.append_assoc, List.append_assoc]
    exact List.sublist_append_left _ _
  exact hprefix.trans hp.order

namespace Post

/-- "Hi" to box 0, with replies to box 1. -/
def hi : Letter where
  mailHdr := ⟨0, 1, 3⟩
  data := [72, 105, 0]
  length := by decide
  short := by decide
  box := by decide

def start : State where
  sender := fun _ => .idle
  messageSent := ⟨0, []⟩
  sendDones := 0
  wire := []
  inHdr := ⟨0, 0, 0⟩
  inbox := fun _ => 0
  messageAvailable := ⟨0, []⟩
  worker := .atP
  buffer := fun _ => 0
  boxes := fun _ => []
  failed := false
  sent := []

/-- Two threads send; the first packet is lost, and the second arrives while the worker sleeps. -/
def twoSenders : List Event :=
  [.send 1 ⟨0, 0, 0⟩ hi (fun _ => 7), .send 2 ⟨0, 0, 0⟩ hi (fun _ => 7), .netSend 2 true (fun _ => 7),
    .netSend 1 false (fun _ => 7), .postalDelivery (fun _ => 7), .checkPktAvail true (fun _ => 9), .sendDone, .await 2,
    .postalDelivery (fun _ => 7), .postalDelivery (fun _ => 7), .postalDelivery (fun _ => 7)]

end Post

open Post in
theorem mail_in_order_twoSenders : ∃ s : Post.State, s.sent.length = 2 ∧
    (s.boxes 0).map (fun m => [m.data 0, m.data 1, m.data 2]) = [[72, 105, 0]] ∧
    ∃ letters, letters.Sublist (forBox 0 s.sent) ∧ List.Forall₂ (Delivered 5) letters (s.boxes 0) := by
  have hrun : ((Post.system 5 6).run Post.start twoSenders).map
      (fun s => (s.sent.length, (s.boxes 0).map (fun m => [m.data 0, m.data 1, m.data 2]))) =
      some (2, [[72, 105, 0]]) := by
    decide +kernel
  obtain ⟨s, hs, hproj⟩ := Option.map_eq_some_iff.1 hrun
  rw [Prod.mk.injEq] at hproj
  have hstart : Post.Initial Post.start :=
    ⟨fun _ => rfl, rfl, rfl, rfl, rfl, fun _ => rfl, rfl, rfl⟩
  have hreach := System.reachable_of_run (S := Post.system 5 6) twoSenders hstart hs
  exact ⟨s, hproj.1, hproj.2, (mail_in_order hreach).2 0 (by decide)⟩

end Nachos
