import OriaOS.Lib.Reach
import OriaOS.Sched.Table

/-!
# Mailboxes

`mq_send` and `mq_recv` of `mq.c`. A message goes to the first free slot of the
mailbox and is taken from the first used one, so the slots hold the messages in
order of age only while nothing is put below a message that still waits.

`accepted` are the messages `mq_send` took, `delivered` those `mq_recv` returned
with their length; it reports an empty message as none.
-/

namespace OriaOS.Ipc

open OriaOS.Lib OriaOS.Sched

/-- `MQ_MAX_MSGS`. -/
abbrev mqMaxMsgs : Nat := 8

/-- `MQ_MSG_SIZE`. -/
abbrev mqMsgSize : Nat := 56

structure MqMsg where
  used : Bool
  fromPid : Int
  len : Nat
  data : Fin mqMsgSize → UInt8

abbrev Mailbox := Fin mqMaxMsgs → MqMsg

/-- The slot of a task number. -/
def taskAt (pid : Int) : Option Tid :=
  if h : 0 ≤ pid ∧ pid < maxTasks then some ⟨pid.toNat, by omega⟩ else none

/-- The length that `mq_send` stores. -/
def mqLen (len : Int) : Nat := (min len mqMsgSize).toNat

/-- The payload of a message: the bytes that `mq_send` copied. -/
def MqMsg.payload (m : MqMsg) : List UInt8 :=
  ((List.finRange mqMsgSize).take m.len).map m.data

def freeMsg (box : Mailbox) : Option (Fin mqMaxMsgs) :=
  (List.finRange mqMaxMsgs).find? fun j => !(box j).used

def firstMsg (box : Mailbox) : Option (Fin mqMaxMsgs) :=
  (List.finRange mqMaxMsgs).find? fun j => (box j).used

/-- The slot behind the loop of `mq_send`. -/
def MqMsg.fill (m : MqMsg) (data : Nat → UInt8) (len : Int) (fromPid : Int) : MqMsg :=
  ⟨true, fromPid, mqLen len, fun k => if k.val < mqLen len then data k else m.data k⟩

/-- `mq_send`: the mailboxes, and the slot used, none for -1. -/
def mqSend (used : Tid → Bool) (boxes : Tid → Mailbox) (dst : Int) (data : Nat → UInt8)
    (len fromPid : Int) : (Tid → Mailbox) × Option (Tid × Fin mqMaxMsgs) :=
  match taskAt dst with
  | none => (boxes, none)
  | some t =>
      if used t then
        match freeMsg (boxes t) with
        | none => (boxes, none)
        | some j =>
            (Function.update boxes t
              (Function.update (boxes t) j ((boxes t j).fill data len fromPid)), some (t, j))
      else (boxes, none)

/-- What `mq_recv` leaves: the mailboxes, the result, the bytes in the buffer and the
sender, if it stored one. -/
structure Received where
  boxes : Tid → Mailbox
  ret : Int
  buf : List UInt8
  fromPid : Option Int

/-- `mq_recv`. -/
def mqRecv (boxes : Tid → Mailbox) (dst maxLen : Int) : Received :=
  match taskAt dst with
  | none => ⟨boxes, 0, [], none⟩
  | some t =>
      match firstMsg (boxes t) with
      | none => ⟨boxes, 0, [], none⟩
      | some j =>
          let m := boxes t j
          let len := min (m.len : Int) maxLen
          ⟨Function.update boxes t (Function.update (boxes t) j { m with used := false }), len,
            m.payload.take len.toNat, some m.fromPid⟩

/-! ## Runs -/

/-- The mailboxes, which slots of the task table are used, and for each mailbox the
messages it took and gave. -/
structure MqSys where
  used : Tid → Bool
  boxes : Tid → Mailbox
  accepted : Tid → List (Int × List UInt8)
  delivered : Tid → List (Int × List UInt8)

inductive MqOp where
  | send (dst : Int) (data : Nat → UInt8) (len fromPid : Int)
  | recv (dst maxLen : Int)
  /-- A slot of the task table is taken or given up. -/
  | task (t : Tid) (used : Bool)

/-- Another message at the end of the history of a mailbox. -/
def addMsg (history : Tid → List (Int × List UInt8)) (t : Tid) (m : Int × List UInt8) :
    Tid → List (Int × List UInt8) :=
  Function.update history t (history t ++ [m])

def mqStep (s : MqSys) : MqOp → MqSys
  | .send dst data len fromPid =>
      match mqSend s.used s.boxes dst data len fromPid with
      | (boxes, none) => { s with boxes := boxes }
      | (boxes, some (t, _)) =>
          { s with
            boxes := boxes
            accepted := addMsg s.accepted t (fromPid, (List.range (mqLen len)).map data) }
  | .recv dst maxLen =>
      let r := mqRecv s.boxes dst maxLen
      match taskAt dst, r.fromPid with
      | some t, some fromPid =>
          { s with
            boxes := r.boxes
            delivered :=
              if 0 < r.ret then addMsg s.delivered t (fromPid, r.buf) else s.delivered }
      | _, _ => { s with boxes := r.boxes }
  | .task t used => { s with used := Function.update s.used t used }

/-- After `mq_init`. -/
structure MqStart (s : MqSys) : Prop where
  boxes : ∀ t j, (s.boxes t j).used = false
  accepted : ∀ t, s.accepted t = []
  delivered : ∀ t, s.delivered t = []

/-- What a mailbox gave is a prefix of what it took. -/
def MailOk (s : MqSys) : Prop := ∀ t, s.delivered t <+: s.accepted t

/-- The condition on the steps: a message that is taken is not empty and no message
waits above its slot; a message that is given fits in the buffer. -/
def mqGuard (s : MqSys) : MqOp → Prop
  | .send dst data len fromPid =>
      ∀ t j, (mqSend s.used s.boxes dst data len fromPid).2 = some (t, j) →
        0 < len ∧ ∀ i, j < i → (s.boxes t i).used = false
  | .recv dst maxLen =>
      ∀ t j, taskAt dst = some t → firstMsg (s.boxes t) = some j → (s.boxes t j).len ≤ maxLen
  | .task _ _ => True

instance (s : MqSys) (op : MqOp) : Decidable (mqGuard s op) :=
  match op with
  | .send dst data len fromPid => inferInstanceAs (Decidable (∀ t j,
      (mqSend s.used s.boxes dst data len fromPid).2 = some (t, j) →
        0 < len ∧ ∀ i, j < i → (s.boxes t i).used = false))
  | .recv dst maxLen => inferInstanceAs (Decidable (∀ t j,
      taskAt dst = some t → firstMsg (s.boxes t) = some j → (s.boxes t j).len ≤ maxLen))
  | .task _ _ => isTrue trivial

/-! ## One mailbox -/

/-- The messages in the slots, in the order of the slots. -/
def slotMsg (m : MqMsg) : Option (Int × List UInt8) :=
  if m.used then some (m.fromPid, m.payload) else none

def waiting (box : Mailbox) : List (Int × List UInt8) :=
  (List.finRange mqMaxMsgs).filterMap fun j => slotMsg (box j)

theorem filterMap_eq_nil_of_unused {box : Mailbox} {l : List (Fin mqMaxMsgs)}
    (h : ∀ i ∈ l, (box i).used = false) : (l.filterMap fun j => slotMsg (box j)) = [] := by
  rw [List.filterMap_eq_nil_iff]
  intro i hi
  simp [slotMsg, h i hi]

/-- A slot with none used in front of it stands first. -/
theorem waiting_split {box : Mailbox} {as bs : List (Fin mqMaxMsgs)} {j : Fin mqMaxMsgs}
    (h : List.finRange mqMaxMsgs = as ++ j :: bs) (m : MqMsg) :
    waiting (Function.update box j m) =
      (as.filterMap fun i => slotMsg (box i)) ++ (slotMsg m).toList ++
        bs.filterMap fun i => slotMsg (box i) := by
  have hnodup := List.nodup_finRange mqMaxMsgs
  rw [h] at hnodup
  have hnotin := List.nodup_middle.mp hnodup
  rw [List.nodup_cons, List.mem_append, not_or] at hnotin
  have hsame (l : List (Fin mqMaxMsgs)) (hl : j ∉ l) :
      (l.filterMap fun i => slotMsg (Function.update box j m i)) =
        l.filterMap fun i => slotMsg (box i) := by
    apply List.filterMap_congr
    intro i hi
    have hij : i ≠ j := by
      rintro rfl
      exact hl hi
    rw [Function.update_of_ne hij]
  rw [waiting, h, List.filterMap_append, List.filterMap_cons, hsame as hnotin.1.1,
    hsame bs hnotin.1.2, Function.update_self, List.append_assoc]
  cases slotMsg m <;> rfl

theorem waiting_split_self {box : Mailbox} {as bs : List (Fin mqMaxMsgs)} {j : Fin mqMaxMsgs}
    (h : List.finRange mqMaxMsgs = as ++ j :: bs) :
    waiting box = (as.filterMap fun i => slotMsg (box i)) ++ (slotMsg (box j)).toList ++
      bs.filterMap fun i => slotMsg (box i) := by
  rw [← waiting_split h (box j), Function.update_eq_self]

/-- Slots stand in the order of their numbers. -/
theorem lt_of_split {as bs : List (Fin mqMaxMsgs)} {j i : Fin mqMaxMsgs}
    (h : List.finRange mqMaxMsgs = as ++ j :: bs) (hi : i ∈ bs) : j < i := by
  have hsorted := List.pairwise_lt_finRange mqMaxMsgs
  rw [h, List.pairwise_append, List.pairwise_cons] at hsorted
  exact hsorted.2.1.1 i hi

theorem payload_fill (m : MqMsg) (data : Nat → UInt8) (len fromPid : Int) :
    (m.fill data len fromPid).payload = (List.range (mqLen len)).map data := by
  have hle : mqLen len ≤ mqMsgSize := by
    simp only [mqLen, mqMsgSize]
    omega
  apply List.ext_getElem
  · simp [MqMsg.payload, MqMsg.fill, hle]
  · intro i hi hi'
    rw [List.length_map, List.length_range] at hi'
    simp [MqMsg.payload, MqMsg.fill, hi']

/-- A message put above all that wait is the last of them. -/
theorem waiting_fill {box : Mailbox} {j : Fin mqMaxMsgs} (hj : freeMsg box = some j)
    (habove : ∀ i, j < i → (box i).used = false) (data : Nat → UInt8) (len fromPid : Int) :
    waiting (Function.update box j ((box j).fill data len fromPid)) =
      waiting box ++ [(fromPid, (List.range (mqLen len)).map data)] := by
  obtain ⟨hfree, as, bs, hsplit, -⟩ := List.find?_eq_some_iff_append.mp hj
  rw [Bool.not_eq_true'] at hfree
  rw [waiting_split hsplit, waiting_split_self hsplit, ← payload_fill (box j) data len fromPid]
  rw [filterMap_eq_nil_of_unused fun i hi => habove i (lt_of_split hsplit hi)]
  simp [slotMsg, hfree, MqMsg.fill]

/-- The message that is taken was the first. -/
theorem waiting_take {box : Mailbox} {j : Fin mqMaxMsgs} (hj : firstMsg box = some j) :
    waiting box = ((box j).fromPid, (box j).payload) ::
      waiting (Function.update box j { box j with used := false }) := by
  obtain ⟨hused, as, bs, hsplit, hfront⟩ := List.find?_eq_some_iff_append.mp hj
  rw [waiting_split hsplit, waiting_split_self hsplit]
  rw [filterMap_eq_nil_of_unused fun i hi => by simpa using hfront i hi]
  simp [slotMsg, hused]

/-! ## Every run -/

/-- What a mailbox gave, and behind it what waits there, is what it took. No message
that waits is empty. -/
structure MailInv (s : MqSys) : Prop where
  order : ∀ t, s.delivered t ++ waiting (s.boxes t) = s.accepted t
  nonempty : ∀ t j, (s.boxes t j).used = true →
    0 < (s.boxes t j).len ∧ (s.boxes t j).len ≤ mqMsgSize

theorem MailInv.ok {s : MqSys} (h : MailInv s) : MailOk s := fun t => ⟨_, h.order t⟩

theorem MqStart.inv {s : MqSys} (h : MqStart s) : MailInv s := by
  constructor
  · intro t
    rw [h.accepted, h.delivered, waiting, filterMap_eq_nil_of_unused fun i _ => h.boxes t i]
    rfl
  · intro t j hused
    rw [h.boxes] at hused
    cases hused

section Steps
variable {s : MqSys}

/-- `mq_send` takes no message, or fills the first free slot of a mailbox. -/
theorem mqSend_cases (used : Tid → Bool) (boxes : Tid → Mailbox) (dst : Int) (data : Nat → UInt8)
    (len fromPid : Int) :
    mqSend used boxes dst data len fromPid = (boxes, none) ∨
      ∃ t j, freeMsg (boxes t) = some j ∧
        mqSend used boxes dst data len fromPid =
          (Function.update boxes t
            (Function.update (boxes t) j ((boxes t j).fill data len fromPid)), some (t, j)) := by
  unfold mqSend
  split
  · exact Or.inl rfl
  · next t _ =>
    split
    · split
      · exact Or.inl rfl
      · next j hj => exact Or.inr ⟨t, j, hj, rfl⟩
    · exact Or.inl rfl

/-- Only one mailbox and its histories change. -/
theorem MailInv.change {s' : MqSys} {t : Tid} (h : MailInv s)
    (hboxes : ∀ u, u ≠ t → s'.boxes u = s.boxes u)
    (haccepted : ∀ u, u ≠ t → s'.accepted u = s.accepted u)
    (hdelivered : ∀ u, u ≠ t → s'.delivered u = s.delivered u)
    (horder : s'.delivered t ++ waiting (s'.boxes t) = s'.accepted t)
    (hnonempty : ∀ j, (s'.boxes t j).used = true →
      0 < (s'.boxes t j).len ∧ (s'.boxes t j).len ≤ mqMsgSize) : MailInv s' := by
  constructor
  · intro u
    by_cases hu : u = t
    · subst hu
      exact horder
    · rw [hdelivered u hu, hboxes u hu, haccepted u hu]
      exact h.order u
  · intro u j hused
    by_cases hu : u = t
    · subst hu
      exact hnonempty j hused
    · rw [hboxes u hu] at hused ⊢
      exact h.nonempty u j hused

theorem send_inv (h : MailInv s) {dst : Int} {data : Nat → UInt8} {len fromPid : Int}
    (hg : mqGuard s (.send dst data len fromPid)) :
    MailInv (mqStep s (.send dst data len fromPid)) := by
  simp only [mqStep]
  rcases mqSend_cases s.used s.boxes dst data len fromPid with heq | ⟨t, j, hj, heq⟩
  · rw [heq]
    exact h
  · obtain ⟨hlen, habove⟩ := hg t j (by rw [heq])
    rw [heq]
    apply h.change (t := t)
    · exact fun u hu => Function.update_of_ne hu _ _
    · exact fun u hu => Function.update_of_ne hu _ _
    · exact fun _ _ => rfl
    · simp only [addMsg, Function.update_self]
      rw [waiting_fill hj habove, ← List.append_assoc, h.order]
    · intro i hused
      simp only [Function.update_self] at hused ⊢
      by_cases hij : i = j
      · subst hij
        simp only [Function.update_self, MqMsg.fill, mqLen, mqMsgSize]
        omega
      · rw [Function.update_of_ne hij] at hused ⊢
        exact h.nonempty t i hused

/-- `mq_recv` finds no message, or empties the first used slot of a mailbox. -/
theorem mqRecv_cases (boxes : Tid → Mailbox) (dst maxLen : Int) :
    mqRecv boxes dst maxLen = ⟨boxes, 0, [], none⟩ ∨
      ∃ t j, taskAt dst = some t ∧ firstMsg (boxes t) = some j ∧
        mqRecv boxes dst maxLen =
          ⟨Function.update boxes t (Function.update (boxes t) j { boxes t j with used := false }),
            min (boxes t j).len maxLen,
            (boxes t j).payload.take (min ((boxes t j).len : Int) maxLen).toNat,
            some (boxes t j).fromPid⟩ := by
  unfold mqRecv
  split
  · exact Or.inl rfl
  · next t ht =>
    split
    · exact Or.inl rfl
    · next j hj => exact Or.inr ⟨t, j, ht, hj, rfl⟩

theorem recv_inv (h : MailInv s) {dst maxLen : Int} (hg : mqGuard s (.recv dst maxLen)) :
    MailInv (mqStep s (.recv dst maxLen)) := by
  rcases mqRecv_cases s.boxes dst maxLen with heq | ⟨t, j, ht, hj, heq⟩
  · simp only [mqStep, heq]
    split
    · next _ hnone => cases hnone
    · exact h
  · have hroom := hg t j ht hj
    have hfirst : (s.boxes t j).used = true :=
      List.find?_some (p := fun j => (s.boxes t j).used) hj
    obtain ⟨hpos, hmax⟩ := h.nonempty t j hfirst
    have hlen : (s.boxes t j).payload.length = (s.boxes t j).len := by
      simp [MqMsg.payload, hmax]
    simp only [mqStep, heq, ht]
    rw [min_eq_left hroom, Int.toNat_natCast, if_pos (by omega),
      List.take_of_length_le (by omega)]
    apply h.change (t := t)
    · exact fun u hu => Function.update_of_ne hu _ _
    · exact fun _ _ => rfl
    · exact fun u hu => Function.update_of_ne hu _ _
    · simp only [addMsg, Function.update_self]
      rw [List.append_assoc, List.singleton_append, ← waiting_take hj, h.order]
    · intro i hused
      simp only [Function.update_self] at hused ⊢
      by_cases hij : i = j
      · subst hij
        simp at hused
      · rw [Function.update_of_ne hij] at hused ⊢
        exact h.nonempty t i hused

end Steps

/-- Empty mailboxes, and task 1 to receive. -/
def emptyMail : MqSys where
  used := fun t => t = 1
  boxes := fun _ _ => ⟨false, 0, 0, fun _ => 0⟩
  accepted := fun _ => []
  delivered := fun _ => []

theorem emptyMail_start : MqStart emptyMail := ⟨fun _ _ => rfl, fun _ => rfl, fun _ => rfl⟩

/-- A message of one byte to task 1. -/
def sendByte (b : UInt8) : MqOp := .send 1 (fun _ => b) 1 2

/-- The third message is put into the slot that the first one left, in front of the
second. -/
def overtake : List MqOp :=
  [sendByte 65, sendByte 66, .recv 1 56, sendByte 67, .recv 1 56]

end OriaOS.Ipc
