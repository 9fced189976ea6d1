import OriaOS.Lib.Reach
import OriaOS.Tcp.Table

/-!
# Invariants of the connection table

Entries of the table are told apart by the incarnation they are in, counted by
the openings of the slot. The table is in order when used connections differ in
their addresses, when the accept queues hold used connections on their
listener's port, and when no incarnation is accepted twice. Slots are queued by
number, so this depends on no queued slot being released and on no SYN being
taken for a connection that exists.
-/

namespace OriaOS.Tcp

open OriaOS.Lib

variable {s : Seg} {i : Slot} {now : UInt32}

/-- Openings of each slot, and the incarnations accepts have returned. -/
structure Accepts where
  inc : Slot → Nat
  handed : List (Slot × Nat)

/-- The record after a step: first the opening, then the accept. -/
def Accepts.after (m : Accepts) (out : NetOut) : Accepts :=
  let inc := match out.opened with
    | none => m.inc
    | some i => Function.update m.inc i (m.inc i + 1)
  let handed := match out.accepted with
    | none => m.handed
    | some i => m.handed ++ [(i, inc i)]
  ⟨inc, handed⟩

def tableStep (s : Net × Accepts) (op : NetOp) : Net × Accepts :=
  let r := netStep s.1 op
  (r.1, s.2.after r.2)

/-- The stack after boot, with nothing opened or accepted. -/
def TableStart (s : Net × Accepts) : Prop := s = (Net.boot, ⟨fun _ => 0, []⟩)

/-- The `k`-th entry of an accept queue from its head. -/
def queued (t : TcpListen) (k : Nat) : Option Slot := t.acceptQ (t.aqHead + Fin.ofNat 2 k)

/-- The slot waits in the queue of an active listener. -/
def Waiting (n : Net) (i : Slot) : Prop :=
  ∃ l, (n.listen l).active = true ∧ ∃ k, k < (n.listen l).aqCount ∧ queued (n.listen l) k = some i

/-- The addresses that identify a connection to the peer. -/
def SamePeer (c c' : TcpConn) : Prop :=
  c.srcPort = c'.srcPort ∧ c.dstPort = c'.dstPort ∧ c.dstIp = c'.dstIp

structure TableOk (s : Net × Accepts) : Prop where
  unique : ∀ i j, (s.1.conns i).used = true → (s.1.conns j).used = true →
    SamePeer (s.1.conns i) (s.1.conns j) → i = j
  waiting : ∀ l, (s.1.listen l).active = true → ∀ k, k < (s.1.listen l).aqCount →
    ∃ i, queued (s.1.listen l) k = some i ∧ (s.1.conns i).used = true ∧
      (s.1.conns i).srcPort = (s.1.listen l).port
  handed : s.2.handed.Nodup

/-- A listener makes a connection from the segment. -/
def Opens (n : Net) (s : Seg) : Prop :=
  s.flags &&& (SYN ||| ACK) = SYN ∧
    (∃ l, findListen n s.dstPort = some l ∧ (n.listen l).aqCount < 2) ∧ freeSlot n ≠ none

/-- The timer gives the connection up. -/
def TimesOut (c : TcpConn) (now : UInt32) : Prop :=
  rtoElapsed c now ∧ maxRetrans ≤ c.retransCount ∨
    idleElapsed c now ∧ keepaliveCnt ≤ c.kaProbes

/-- The condition on the steps: no reset, close or timer releases a waiting
slot, no SYN opens a second connection to the same peer, and a connect finds
its slot still free and its addresses unused when its peer is resolved. -/
def tableGuard (s : Net × Accepts) : NetOp → Prop
  | .poll _ (some seg) =>
      (∀ i, findConn s.1 seg = some i → seg.has RST → ¬ Waiting s.1 i) ∧
        (Opens s.1 seg → ¬ seg.has RST → findConn s.1 seg = none)
  | .tick now => ∀ i, Waiting s.1 i → ¬ TimesOut (s.1.conns i) now
  | .close id => ¬ Waiting s.1 id
  | .resolved _ _ => ∀ id ip port, s.1.call = .arp id ip port →
      (s.1.conns id).used = false ∧
        ∀ j, (s.1.conns j).used = true →
          ¬ ((s.1.conns j).srcPort = s.1.portCtr ∧ (s.1.conns j).dstPort = port ∧
            (s.1.conns j).dstIp = ip)
  | _ => True

/-- The states a connection goes through while it waits to be accepted. -/
def TcpState.acceptable (st : TcpState) : Prop := st = .established ∨ st = .closeWait

/-- The queue is within its two places. -/
structure QueueShape (t : TcpListen) : Prop where
  count : t.aqCount ≤ 2
  tail : t.aqTail = t.aqHead + Fin.ofNat 2 t.aqCount

/-- The invariant of the table, without the waiting call. -/
structure TableCore (n : Net) (m : Accepts) : Prop where
  unique : ∀ i j, (n.conns i).used = true → (n.conns j).used = true →
    SamePeer (n.conns i) (n.conns j) → i = j
  shape : ∀ l, (n.listen l).active = true → QueueShape (n.listen l)
  waiting : ∀ l, (n.listen l).active = true → ∀ k, k < (n.listen l).aqCount →
    ∃ i, queued (n.listen l) k = some i ∧ (n.conns i).used = true ∧
      (n.conns i).srcPort = (n.listen l).port ∧ (n.conns i).state.acceptable
  distinct : ∀ l l' k k' i, (n.listen l).active = true → (n.listen l').active = true →
    k < (n.listen l).aqCount → k' < (n.listen l').aqCount →
    queued (n.listen l) k = some i → queued (n.listen l') k' = some i → l = l' ∧ k = k'
  fresh : ∀ i, Waiting n i → (i, m.inc i) ∉ m.handed
  bound : ∀ x ∈ m.handed, x.2 ≤ m.inc x.1
  nodup : m.handed.Nodup

/-- What the waiting call relies on. -/
def CallInv (n : Net) : Prop :=
  match n.call with
  | .syn id => (n.conns id).used = true ∧ (n.conns id).state = .synSent ∧ ¬ Waiting n id
  | .fin id => (n.conns id).used = true ∧ (n.conns id).state ≠ .established ∧
      (n.conns id).state ≠ .synSent ∧ ¬ Waiting n id
  | .accept lid => (n.listen lid).active = true
  | _ => True

section Queue
variable {t : TcpListen} {i : Slot} {k : Nat}

theorem queued_dequeue (t : TcpListen) (k : Nat) : queued (dequeue t) k = queued t (k + 1) := by
  simp only [queued, dequeue]
  congr 1
  ext
  simp [Fin.val_add]
  omega

theorem queueShape_dequeue (h : QueueShape t) (hpos : 0 < t.aqCount) : QueueShape (dequeue t) := by
  obtain ⟨hcount, htail⟩ := h
  refine ⟨Nat.le_trans (Nat.sub_le _ _) hcount, ?_⟩
  simp only [dequeue]
  rw [htail]
  ext
  simp [Fin.val_add]
  omega

theorem queueShape_enqueue (h : QueueShape t) (hroom : t.aqCount < 2) (i : Slot) :
    QueueShape (enqueue t i) := by
  obtain ⟨hcount, htail⟩ := h
  refine ⟨hroom, ?_⟩
  simp only [enqueue]
  rw [htail]
  ext
  simp [Fin.val_add, Nat.add_assoc]

theorem queued_enqueue_last (h : QueueShape t) (i : Slot) :
    queued (enqueue t i) t.aqCount = some i := by
  simp only [queued, enqueue]
  rw [← h.tail, Function.update_self]

theorem queued_enqueue_of_lt (h : QueueShape t) (hroom : t.aqCount < 2) (hk : k < t.aqCount)
    (i : Slot) : queued (enqueue t i) k = queued t k := by
  simp only [queued, enqueue]
  apply Function.update_of_ne
  rw [h.tail]
  intro heq
  have hval := congrArg Fin.val heq
  simp [Fin.val_add] at hval
  omega

end Queue

/-- The entry is used as before and belongs to the same peer. -/
structure SameEntry (c c' : TcpConn) : Prop where
  used : c'.used = c.used
  peer : SamePeer c' c

section Entry
variable {c : TcpConn}

theorem SameEntry.refl (c : TcpConn) : SameEntry c c := ⟨rfl, rfl, rfl, rfl⟩

theorem rxData_sameEntry (c : TcpConn) (now : UInt32) (s : Seg) :
    SameEntry c (rxData c now s).1 := by
  by_cases heq : s.seq = c.rcvNxt
  · simp only [rxData, if_pos heq, mergeOoo]
    split
    · exact ⟨rfl, rfl, rfl, rfl⟩
    · exact ⟨rfl, rfl, rfl, rfl⟩
  · simp only [rxData, if_neg heq, keepOoo]
    split
    · split
      · exact ⟨rfl, rfl, rfl, rfl⟩
      · exact ⟨rfl, rfl, rfl, rfl⟩
    · exact ⟨rfl, rfl, rfl, rfl⟩

/-- An open connection keeps its entry; ESTABLISHED can only go to CLOSE_WAIT. -/
theorem rxOpen_entry (c : TcpConn) (now : UInt32) (s : Seg) :
    SameEntry c (rxOpen c now s).1 ∧
      ((rxOpen c now s).1.state = c.state ∨
        c.state = .established ∧ (rxOpen c now s).1.state = .closeWait ∨
        c.state ≠ .established ∧
          ((rxOpen c now s).1.state = .finWait2 ∨ (rxOpen c now s).1.state = .timeWait)) := by
  obtain ⟨buf, nxt, st, heq, hst⟩ :
      ∃ buf nxt st, (if s.has ACK then rxAck c s.ack else c) =
        { c with txBuf := buf, sndNxt := nxt, state := st } ∧
          (st = c.state ∨ c.state = .finWait1 ∧ st = .finWait2) := by
    split
    · exact rxAck_frame c s.ack
    · exact ⟨_, _, _, rfl, Or.inl rfl⟩
  unfold rxOpen
  simp only [heq]
  have hdata : ∀ r : TcpConn × List TxSeg,
      r = rxData { c with txBuf := buf, sndNxt := nxt, state := st } now s ∨
        r = ({ c with txBuf := buf, sndNxt := nxt, state := st }, []) →
      SameEntry c r.1 ∧ r.1.state = st := by
    rintro r (rfl | rfl)
    · obtain ⟨hused, hpeer⟩ :=
        rxData_sameEntry { c with txBuf := buf, sndNxt := nxt, state := st } now s
      exact ⟨⟨hused, hpeer⟩, (rxData_sameTx _ now s).1.state⟩
    · exact ⟨⟨rfl, rfl, rfl, rfl⟩, rfl⟩
  have hdata' := hdata _ (ite_eq_or_eq (0 < s.data.length ∧ st = .established)
    (rxData { c with txBuf := buf, sndNxt := nxt, state := st } now s)
    ({ c with txBuf := buf, sndNxt := nxt, state := st }, []))
  generalize (if 0 < s.data.length ∧ st = .established then
    rxData { c with txBuf := buf, sndNxt := nxt, state := st } now s
    else ({ c with txBuf := buf, sndNxt := nxt, state := st }, [])) = r₂ at hdata' ⊢
  obtain ⟨hentry, hst₂⟩ := hdata'
  by_cases hF : s.has FIN
  · simp only [if_pos hF, rxFin, hst₂]
    refine ⟨⟨hentry.used, hentry.peer⟩, Or.inr ?_⟩
    by_cases he : c.state = .established
    · have hest : st = .established := by
        rcases hst with rfl | ⟨hf, _⟩
        · exact he
        · rw [he] at hf
          cases hf
      exact Or.inl ⟨he, if_pos hest⟩
    · have hest : st ≠ .established := by
        rcases hst with rfl | ⟨_, rfl⟩
        · exact he
        · decide
      exact Or.inr ⟨he, Or.inr (if_neg hest)⟩
  · simp only [if_neg hF, hst₂]
    refine ⟨hentry, ?_⟩
    rcases hst with rfl | ⟨hf, rfl⟩
    · exact Or.inl rfl
    · exact Or.inr (Or.inr ⟨by rw [hf]; decide, Or.inl rfl⟩)

/-- What a segment other than a reset can do to the entry it matches. -/
structure EntryStep (s : Seg) (c c' : TcpConn) : Prop where
  peer : SamePeer c' c
  used : c'.used = c.used ∨ c.state = .lastAck ∧ s.has ACK ∧ c'.used = false
  acceptable : c.state.acceptable → c'.state.acceptable
  synSent : c.state = .synSent → c'.state = .synSent ∨ c'.state = .established
  closing : c.state ≠ .established → c.state ≠ .synSent →
    c'.state ≠ .established ∧ c'.state ≠ .synSent

theorem EntryStep.refl (s : Seg) (c : TcpConn) : EntryStep s c c :=
  ⟨⟨rfl, rfl, rfl⟩, Or.inl rfl, id, Or.inl, fun h h' => ⟨h, h'⟩⟩

theorem rxOpen_entryStep (now : UInt32) (s : Seg) (hreads : c.state.reads) :
    EntryStep s c (rxOpen c now s).1 := by
  obtain ⟨hentry, hcase⟩ := rxOpen_entry c now s
  have hsyn : c.state ≠ .synSent := by
    rcases hreads with h | h | h <;> rw [h] <;> decide
  have hcw : c.state ≠ .closeWait := by
    rcases hreads with h | h | h <;> rw [h] <;> decide
  refine ⟨hentry.peer, Or.inl hentry.used, ?_, fun h => absurd h hsyn, ?_⟩
  · rintro (hest | hc)
    · rcases hcase with h | ⟨_, h⟩ | ⟨h, _⟩
      · exact Or.inl (h.trans hest)
      · exact Or.inr h
      · exact absurd hest h
    · exact absurd hc hcw
  · intro hest _
    rcases hcase with h | ⟨h, _⟩ | ⟨_, h | h⟩
    · rw [h]
      exact ⟨hest, hsyn⟩
    · exact absurd h hest
    · rw [h]
      exact ⟨by decide, by decide⟩
    · rw [h]
      exact ⟨by decide, by decide⟩

theorem rxConn_entryStep (now : UInt32) (hrst : ¬ s.has RST) :
    EntryStep s c (rxConn c now s).1 := by
  simp only [rxConn, if_neg hrst]
  cases hst : c.state with
  | synSent =>
      simp only [rxSynSent]
      split
      · exact ⟨⟨rfl, rfl, rfl⟩, Or.inl rfl, by simp [TcpState.acceptable, hst],
          fun _ => Or.inr rfl, fun _ h => absurd hst h⟩
      · exact EntryStep.refl s c
  | established => exact rxOpen_entryStep now s (Or.inl hst)
  | finWait1 => exact rxOpen_entryStep now s (Or.inr (Or.inl hst))
  | finWait2 => exact rxOpen_entryStep now s (Or.inr (Or.inr hst))
  | lastAck =>
      simp only
      split
      · next hack =>
          exact ⟨⟨rfl, rfl, rfl⟩, Or.inr ⟨hst, hack, rfl⟩, by simp [TcpState.acceptable, hst],
            by simp [hst], fun _ _ => ⟨by simp [release], by simp [release]⟩⟩
      · exact EntryStep.refl s c
  | closed => exact EntryStep.refl s c
  | closeWait => exact EntryStep.refl s c
  | timeWait => exact EntryStep.refl s c

/-- The timer changes neither peer nor state of an entry it does not give up. -/
theorem tickConn_entry (c : TcpConn) (now : UInt32) :
    SamePeer (tickConn c now).1 c ∧
      ((tickConn c now).1.used = c.used ∧ (tickConn c now).1.state = c.state ∨
        c.state = .established ∧ TimesOut c now ∧ (tickConn c now).1.used = false) := by
  have hka : ∀ c' : TcpConn, c'.state = c.state → SameEntry c c' →
      (idleElapsed c' now ∧ keepaliveCnt ≤ c'.kaProbes →
        idleElapsed c now ∧ keepaliveCnt ≤ c.kaProbes) → c.state = .established →
      SamePeer (tickKeepalive c' now).1 c ∧
        ((tickKeepalive c' now).1.used = c.used ∧ (tickKeepalive c' now).1.state = c.state ∨
          c.state = .established ∧ TimesOut c now ∧ (tickKeepalive c' now).1.used = false) := by
    intro c' hst hentry hidle hest
    unfold tickKeepalive
    split
    · next hel =>
        split
        · next hcnt => exact ⟨hentry.peer, Or.inr ⟨hest, Or.inr (hidle ⟨hel, hcnt⟩), rfl⟩⟩
        · exact ⟨hentry.peer, Or.inl ⟨hentry.used, hst⟩⟩
    · exact ⟨hentry.peer, Or.inl ⟨hentry.used, hst⟩⟩
  unfold tickConn
  split
  · exact ⟨⟨rfl, rfl, rfl⟩, Or.inl ⟨rfl, rfl⟩⟩
  · next hopen =>
      have hest : c.state = .established := by
        by_contra hne
        exact hopen (Or.inr hne)
      split
      · next hrto =>
          split
          · next hmax => exact ⟨⟨rfl, rfl, rfl⟩, Or.inr ⟨hest, Or.inl ⟨hrto, hmax⟩, rfl⟩⟩
          · exact hka { c with retransTick := now, retransCount := c.retransCount + 1 } rfl
              ⟨rfl, rfl, rfl, rfl⟩ id hest
      · exact hka c rfl (SameEntry.refl c) id hest

end Entry

section Core
variable {n n' : Net} {m : Accepts} {i : Slot} {c : TcpConn}

theorem waiting_congr (h : n'.listen = n.listen) (i : Slot) : Waiting n' i ↔ Waiting n i := by
  unfold Waiting
  rw [h]

theorem TableCore.used_of_waiting (h : TableCore n m) (hw : Waiting n i) :
    (n.conns i).used = true ∧ (n.conns i).state.acceptable := by
  obtain ⟨l, hl, k, hk, hq⟩ := hw
  obtain ⟨j, hj, hused, _, hst⟩ := h.waiting l hl k hk
  rw [hq] at hj
  cases hj
  exact ⟨hused, hst⟩

theorem TableCore.not_waiting (h : TableCore n m) (hfree : (n.conns i).used = false) :
    ¬ Waiting n i := by
  intro hw
  rw [(h.used_of_waiting hw).1] at hfree
  cases hfree

/-- Entries may change everything but their addresses, and be released, as long
as the waiting ones stay. -/
theorem TableCore.shrink (h : TableCore n m) (hlisten : n'.listen = n.listen)
    (hpeer : ∀ i, SamePeer (n'.conns i) (n.conns i))
    (hused : ∀ i, (n'.conns i).used = true → (n.conns i).used = true)
    (hwait : ∀ i, Waiting n i → (n'.conns i).used = true ∧ (n'.conns i).state.acceptable) :
    TableCore n' m := by
  constructor
  · intro i j hi hj ⟨h1, h2, h3⟩
    obtain ⟨hi1, hi2, hi3⟩ := hpeer i
    obtain ⟨hj1, hj2, hj3⟩ := hpeer j
    apply h.unique i j (hused i hi) (hused j hj)
    exact ⟨by rw [← hi1, h1, hj1], by rw [← hi2, h2, hj2], by rw [← hi3, h3, hj3]⟩
  · rw [hlisten]
    exact h.shape
  · rw [hlisten]
    intro l hl k hk
    obtain ⟨i, hq, _, hport, _⟩ := h.waiting l hl k hk
    obtain ⟨hu, hst⟩ := hwait i ⟨l, hl, k, hk, hq⟩
    exact ⟨i, hq, hu, (hpeer i).1.trans hport, hst⟩
  · rw [hlisten]
    exact h.distinct
  · intro i hw
    exact h.fresh i ((waiting_congr hlisten i).mp hw)
  · exact h.bound
  · exact h.nodup

/-- The same for a change of one entry. -/
theorem TableCore.setConn (h : TableCore n m) (hpeer : SamePeer c (n.conns i))
    (hused : c.used = true → (n.conns i).used = true)
    (hwait : Waiting n i → c.used = true ∧ c.state.acceptable) :
    TableCore (n.setConn i c) m := by
  refine TableCore.shrink h ?_ ?_ ?_ ?_
  · rfl
  · intro j
    by_cases hj : j = i
    · subst hj
      simpa [Net.setConn] using hpeer
    · simp [Net.setConn, hj, SamePeer]
  · intro j
    by_cases hj : j = i
    · subst hj
      simpa [Net.setConn] using hused
    · simp [Net.setConn, hj]
  · intro j hw
    by_cases hj : j = i
    · subst hj
      simpa [Net.setConn] using hwait hw
    · simpa [Net.setConn, hj] using h.used_of_waiting hw

theorem TableCore.release (h : TableCore n m) (hw : ¬ Waiting n i) :
    TableCore (n.setConn i (release (n.conns i))) m :=
  h.setConn ⟨rfl, rfl, rfl⟩ (fun hu => nomatch hu) (fun hh => absurd hh hw)

/-- The waiting call is no part of the table. -/
theorem TableCore.setCall (h : TableCore n m) (call : Call) :
    TableCore { n with call := call } m :=
  ⟨h.unique, h.shape, h.waiting, h.distinct, h.fresh, h.bound, h.nodup⟩

/-- Opening a free slot to a peer no used connection has. -/
theorem TableCore.opened (h : TableCore n m) (hfree : (n.conns i).used = false)
    (hnew : ∀ j, (n.conns j).used = true → ¬ SamePeer (n.conns j) c) :
    TableCore (n.setConn i c) ⟨Function.update m.inc i (m.inc i + 1), m.handed⟩ := by
  have hnw := h.not_waiting hfree
  have hold : ∀ j, j ≠ i → (n.setConn i c).conns j = n.conns j := by
    intro j hj
    simp [Net.setConn, hj]
  have hself : (n.setConn i c).conns i = c := by simp [Net.setConn]
  constructor
  · intro j k hj hk hsame
    by_cases hji : j = i
    · subst hji
      by_cases hki : k = j
      · exact hki.symm
      · rw [hself, hold k hki] at hsame
        rw [hold k hki] at hk
        exact absurd ⟨hsame.1.symm, hsame.2.1.symm, hsame.2.2.symm⟩ (hnew k hk)
    · rw [hold j hji] at hj hsame
      by_cases hki : k = i
      · subst hki
        rw [hself] at hsame
        exact absurd hsame (hnew j hj)
      · rw [hold k hki] at hk hsame
        exact h.unique j k hj hk hsame
  · exact h.shape
  · intro l hl k hk
    obtain ⟨j, hq, hrest⟩ := h.waiting l hl k hk
    have hji : j ≠ i := by
      rintro rfl
      exact hnw ⟨l, hl, k, hk, hq⟩
    refine ⟨j, hq, ?_⟩
    rw [hold j hji]
    exact hrest
  · exact h.distinct
  · intro j hw
    have hji : j ≠ i := by
      rintro rfl
      exact hnw hw
    simp only [Function.update_of_ne hji]
    exact h.fresh j hw
  · intro x hx
    have hle := h.bound x hx
    by_cases hxi : x.1 = i
    · simp only [hxi, Function.update_self]
      rw [hxi] at hle
      exact Nat.le_succ_of_le hle
    · simp only [Function.update_of_ne hxi]
      exact hle
  · exact h.nodup

/-- A place of the queues after an insertion is an old place or the new last one. -/
theorem enqueue_place {l l' : Fin listenSlots} {k : Nat} (hshape : QueueShape (n.listen l))
    (hroom : (n.listen l).aqCount < 2)
    (hk : k < ((n.setListen l (enqueue (n.listen l) i)).listen l').aqCount) :
    (k < (n.listen l').aqCount ∧
      queued ((n.setListen l (enqueue (n.listen l) i)).listen l') k = queued (n.listen l') k) ∨
    (l' = l ∧ k = (n.listen l).aqCount ∧
      queued ((n.setListen l (enqueue (n.listen l) i)).listen l') k = some i) := by
  by_cases hne : l' = l
  · subst hne
    simp only [Net.setListen, Function.update_self] at hk ⊢
    by_cases hlast : k = (n.listen l').aqCount
    · subst hlast
      exact Or.inr ⟨trivial, rfl, queued_enqueue_last hshape i⟩
    · have hlt : k < (n.listen l').aqCount := Nat.lt_of_le_of_ne (Nat.lt_succ_iff.mp hk) hlast
      exact Or.inl ⟨hlt, queued_enqueue_of_lt hshape hroom hlt i⟩
  · simp only [Net.setListen, Function.update_of_ne hne] at hk ⊢
    exact Or.inl ⟨hk, trivial⟩

/-- An insertion changes neither which listeners are active nor their ports. -/
theorem enqueue_listen (n : Net) (l l' : Fin listenSlots) (i : Slot) :
    ((n.setListen l (enqueue (n.listen l) i)).listen l').active = (n.listen l').active ∧
      ((n.setListen l (enqueue (n.listen l) i)).listen l').port = (n.listen l').port := by
  by_cases hne : l' = l
  · subst hne
    simp [Net.setListen, enqueue]
  · simp [Net.setListen, hne]

theorem waiting_enqueue {l : Fin listenSlots} {j : Slot} (hshape : QueueShape (n.listen l))
    (hroom : (n.listen l).aqCount < 2)
    (hw : Waiting (n.setListen l (enqueue (n.listen l) i)) j) : Waiting n j ∨ j = i := by
  obtain ⟨l', ha, k, hk, hq⟩ := hw
  rw [(enqueue_listen n l l' i).1] at ha
  rcases enqueue_place hshape hroom hk with ⟨hlt, he⟩ | ⟨_, _, he⟩
  · exact Or.inl ⟨l', ha, k, hlt, he ▸ hq⟩
  · rw [he] at hq
    cases hq
    exact Or.inr rfl

/-- Queueing a connection that is not queued and not accepted yet. -/
theorem TableCore.enqueue {l : Fin listenSlots} (h : TableCore n m)
    (hl : (n.listen l).active = true) (hroom : (n.listen l).aqCount < 2)
    (hused : (n.conns i).used = true) (hport : (n.conns i).srcPort = (n.listen l).port)
    (hst : (n.conns i).state.acceptable) (hw : ¬ Waiting n i) (hnew : (i, m.inc i) ∉ m.handed) :
    TableCore (n.setListen l (enqueue (n.listen l) i)) m := by
  have hshape := h.shape l hl
  constructor
  · exact h.unique
  · intro l' ha
    rw [(enqueue_listen n l l' i).1] at ha
    by_cases hne : l' = l
    · subst hne
      simp only [Net.setListen, Function.update_self]
      exact queueShape_enqueue hshape hroom i
    · simp only [Net.setListen, Function.update_of_ne hne]
      exact h.shape l' ha
  · intro l' ha k hk
    rw [(enqueue_listen n l l' i).1] at ha
    rw [(enqueue_listen n l l' i).2]
    rcases enqueue_place hshape hroom hk with ⟨hlt, hq⟩ | ⟨rfl, _, hq⟩
    · rw [hq]
      exact h.waiting l' ha k hlt
    · exact ⟨i, hq, hused, hport, hst⟩
  · intro l₁ l₂ k₁ k₂ j ha₁ ha₂ hk₁ hk₂ hq₁ hq₂
    rw [(enqueue_listen n l l₁ i).1] at ha₁
    rw [(enqueue_listen n l l₂ i).1] at ha₂
    rcases enqueue_place hshape hroom hk₁ with ⟨hlt₁, he₁⟩ | ⟨hl₁, hc₁, he₁⟩
    · rw [he₁] at hq₁
      rcases enqueue_place hshape hroom hk₂ with ⟨hlt₂, he₂⟩ | ⟨_, _, he₂⟩
      · rw [he₂] at hq₂
        exact h.distinct l₁ l₂ k₁ k₂ j ha₁ ha₂ hlt₁ hlt₂ hq₁ hq₂
      · rw [he₂] at hq₂
        cases hq₂
        exact absurd ⟨l₁, ha₁, k₁, hlt₁, hq₁⟩ hw
    · rw [he₁] at hq₁
      cases hq₁
      rcases enqueue_place hshape hroom hk₂ with ⟨hlt₂, he₂⟩ | ⟨hl₂, hc₂, _⟩
      · rw [he₂] at hq₂
        exact absurd ⟨l₂, ha₂, k₂, hlt₂, hq₂⟩ hw
      · exact ⟨hl₁.trans hl₂.symm, hc₁.trans hc₂.symm⟩
  · intro j hj
    rcases waiting_enqueue hshape hroom hj with hj | rfl
    · exact h.fresh j hj
    · exact hnew
  · exact h.bound
  · exact h.nodup

/-- Queues may lose entries from the front and listeners may start empty: every
place of a new queue is a place of the old one, `d` further on. -/
theorem TableCore.requeue (h : TableCore n m) (d : Fin listenSlots → Nat)
    (hconns : n'.conns = n.conns)
    (hshape : ∀ l, (n'.listen l).active = true → QueueShape (n'.listen l))
    (hplace : ∀ l, (n'.listen l).active = true → ∀ k, k < (n'.listen l).aqCount →
      (n.listen l).active = true ∧ (n'.listen l).port = (n.listen l).port ∧
        k + d l < (n.listen l).aqCount ∧ queued (n'.listen l) k = queued (n.listen l) (k + d l)) :
    TableCore n' m := by
  have hwait : ∀ i, Waiting n' i → Waiting n i := by
    rintro i ⟨l, hl, k, hk, hq⟩
    obtain ⟨hact, _, hlt, heq⟩ := hplace l hl k hk
    exact ⟨l, hact, k + d l, hlt, heq ▸ hq⟩
  constructor
  · rw [hconns]
    exact h.unique
  · exact hshape
  · intro l hl k hk
    obtain ⟨hact, hport, hlt, heq⟩ := hplace l hl k hk
    rw [heq, hport, hconns]
    exact h.waiting l hact (k + d l) hlt
  · intro l l' k k' i hl hl' hk hk' hq hq'
    obtain ⟨hact, _, hlt, heq⟩ := hplace l hl k hk
    obtain ⟨hact', _, hlt', heq'⟩ := hplace l' hl' k' hk'
    rw [heq] at hq
    rw [heq'] at hq'
    obtain ⟨rfl, hkk⟩ := h.distinct l l' _ _ i hact hact' hlt hlt' hq hq'
    exact ⟨rfl, Nat.add_right_cancel hkk⟩
  · exact fun i hw => h.fresh i (hwait i hw)
  · exact h.bound
  · exact h.nodup

/-- Recording an accept of an incarnation that is in no queue. -/
theorem TableCore.handOut (h : TableCore n m) (hw : ¬ Waiting n i)
    (hnew : (i, m.inc i) ∉ m.handed) :
    TableCore n ⟨m.inc, m.handed ++ [(i, m.inc i)]⟩ := by
  refine ⟨h.unique, h.shape, h.waiting, h.distinct, ?_, ?_, ?_⟩
  · intro j hj hmem
    rcases List.mem_append.mp hmem with hmem | hmem
    · exact h.fresh j hj hmem
    · rw [List.mem_singleton, Prod.mk.injEq] at hmem
      exact hw (hmem.1 ▸ hj)
  · intro x hx
    rcases List.mem_append.mp hx with hx | hx
    · exact h.bound x hx
    · rw [List.mem_singleton] at hx
      rw [hx]
  · rw [List.nodup_append]
    refine ⟨h.nodup, List.nodup_singleton _, ?_⟩
    intro x hx y hy
    rw [List.mem_singleton] at hy
    rintro rfl
    exact hnew (hy ▸ hx)

/-- The same for a change of one listener. -/
theorem TableCore.setListen {l : Fin listenSlots} {t : TcpListen} (h : TableCore n m) (d : Nat)
    (hshape : t.active = true → QueueShape t)
    (hplace : t.active = true → ∀ k, k < t.aqCount →
      (n.listen l).active = true ∧ t.port = (n.listen l).port ∧
        k + d < (n.listen l).aqCount ∧ queued t k = queued (n.listen l) (k + d)) :
    TableCore (n.setListen l t) m := by
  refine TableCore.requeue h (fun l' => if l' = l then d else 0) ?_ ?_ ?_
  · rfl
  · intro l' ha
    by_cases hne : l' = l
    · subst hne
      simp only [Net.setListen, Function.update_self] at ha ⊢
      exact hshape ha
    · simp only [Net.setListen, Function.update_of_ne hne] at ha ⊢
      exact h.shape l' ha
  · intro l' ha k hk
    by_cases hne : l' = l
    · subst hne
      simp only [Net.setListen, Function.update_self, if_true] at ha hk ⊢
      exact hplace ha k hk
    · have heq : (n.setListen l t).listen l' = n.listen l' := Function.update_of_ne hne _ _
      rw [heq] at ha hk ⊢
      rw [if_neg hne]
      exact ⟨ha, rfl, hk, rfl⟩

/-- An accept takes the head of the queue, which is a used connection. -/
theorem TableCore.dequeue {l : Fin listenSlots} (h : TableCore n m)
    (hl : (n.listen l).active = true) (hpos : 0 < (n.listen l).aqCount) :
    ∃ i, (n.listen l).acceptQ (n.listen l).aqHead = some i ∧
      TableCore (n.setListen l (dequeue (n.listen l))) ⟨m.inc, m.handed ++ [(i, m.inc i)]⟩ := by
  obtain ⟨i, hq, _⟩ := h.waiting l hl 0 hpos
  have hcore : TableCore (n.setListen l (Tcp.dequeue (n.listen l))) m := by
    apply h.setListen 1
    · exact fun _ => queueShape_dequeue (h.shape l hl) hpos
    · intro _ k hk
      have hk' : k < (n.listen l).aqCount - 1 := hk
      exact ⟨hl, rfl, by omega, queued_dequeue _ k⟩
  refine ⟨i, by simpa [queued] using hq, hcore.handOut ?_ (h.fresh i ⟨l, hl, 0, hpos, hq⟩)⟩
  -- The head was queued once, so it is in no queue afterwards.
  rintro ⟨l', ha, k, hk, hq'⟩
  by_cases hne : l' = l
  · subst hne
    simp only [Net.setListen, Function.update_self] at hk hq'
    have hk' : k < (n.listen l').aqCount - 1 := hk
    rw [queued_dequeue] at hq'
    obtain ⟨_, hzero⟩ := h.distinct l' l' (k + 1) 0 i hl hl (by omega) hpos hq' hq
    exact absurd hzero (Nat.succ_ne_zero k)
  · simp only [Net.setListen, Function.update_of_ne hne] at ha hk hq'
    exact hne (h.distinct l' l k 0 i ha hl hk hpos hq' hq).1

theorem TableCore.listening {l : Fin listenSlots} (h : TableCore n m) (port : UInt16) :
    TableCore (n.setListen l ⟨true, port, fun _ => none, 0, 0, 0⟩) m := by
  apply h.setListen 0
  · exact fun _ => ⟨Nat.zero_le _, rfl⟩
  · exact fun _ k hk => absurd hk (Nat.not_lt_zero k)

theorem TableCore.unlistening {l : Fin listenSlots} (h : TableCore n m) :
    TableCore (n.setListen l { n.listen l with active := false }) m := by
  apply h.setListen 0
  · exact fun ha => nomatch ha
  · exact fun ha => nomatch ha

end Core

/-- What the waiting call relies on between the poll and its own check. -/
def CallMid (n : Net) : Prop :=
  match n.call with
  | .syn id => ¬ Waiting n id ∧ ((n.conns id).used = false ∨
      (n.conns id).state = .synSent ∨ (n.conns id).state = .established)
  | .fin id => ¬ Waiting n id ∧ ((n.conns id).used = false ∨
      (n.conns id).state ≠ .established ∧ (n.conns id).state ≠ .synSent)
  | .accept lid => (n.listen lid).active = true
  | _ => True

section Step
variable {n : Net} {m : Accepts}

theorem CallInv.mid (h : CallInv n) : CallMid n := by
  unfold CallInv at h
  unfold CallMid
  cases hcall : n.call with
  | syn id =>
      simp only [hcall] at h ⊢
      exact ⟨h.2.2, Or.inr (Or.inl h.2.1)⟩
  | fin id =>
      simp only [hcall] at h ⊢
      exact ⟨h.2.2.2, Or.inr ⟨h.2.1, h.2.2.1⟩⟩
  | accept lid =>
      simp only [hcall] at h ⊢
      exact h
  | idle | arp _ _ _ | recv _ _ => trivial

/-- The check of the waiting call after a poll. -/
theorem afterPoll_inv (h : TableCore n m) (hmid : CallMid n) :
    TableCore (afterPoll n).1 (m.after (afterPoll n).2) ∧ CallInv (afterPoll n).1 := by
  unfold CallMid at hmid
  cases hcall : n.call with
  | idle | arp _ _ _ =>
      simp only [afterPoll, hcall]
      exact ⟨h, by simp [CallInv, hcall]⟩
  | syn id =>
      simp only [hcall] at hmid
      simp only [afterPoll, hcall]
      split
      · exact ⟨h.setCall .idle, trivial⟩
      · next hest =>
          split
          · exact ⟨(h.release hmid.1).setCall .idle, trivial⟩
          · next hused =>
              refine ⟨h, ?_⟩
              simp only [CallInv, hcall]
              refine ⟨by simpa using hused, ?_, hmid.1⟩
              rcases hmid.2 with hh | hh | hh
              · exact absurd hh hused
              · exact hh
              · exact absurd hh hest
  | recv id maxlen =>
      simp only [afterPoll, hcall]
      split
      · have hset := h.setConn (i := id) (c := (recvDrain (n.conns id) maxlen).1)
          ⟨rfl, rfl, rfl⟩ (fun hu => hu) (fun hw => h.used_of_waiting hw)
        exact ⟨hset.setCall .idle, trivial⟩
      · split
        · exact ⟨h.setCall .idle, trivial⟩
        · exact ⟨h, by simp [CallInv, hcall]⟩
  | fin id =>
      simp only [hcall] at hmid
      simp only [afterPoll, hcall]
      split
      · exact ⟨(h.release hmid.1).setCall .idle, trivial⟩
      · next hgo =>
          rw [not_or] at hgo
          refine ⟨h, ?_⟩
          simp only [CallInv, hcall]
          rcases hmid.2 with hh | hh
          · exact absurd hh hgo.1
          · exact ⟨by simpa using hgo.1, hh.1, hh.2, hmid.1⟩
  | accept lid =>
      simp only [hcall] at hmid
      simp only [afterPoll, hcall]
      split
      · next hpos =>
          obtain ⟨i, hq, hdeq⟩ := h.dequeue hmid hpos
          simp only [hq, Accepts.after]
          exact ⟨hdeq.setCall .idle, trivial⟩
      · exact ⟨h, by simp [CallInv, hcall, hmid]⟩

theorem findConn_none (h : findConn n s = none) (i : Slot) : ¬ Matches (n.conns i) s := by
  have := List.find?_eq_none.mp h i (List.mem_finRange i)
  simpa using this

theorem findListen_spec {port : UInt16} {l : Fin listenSlots} (h : findListen n port = some l) :
    (n.listen l).active = true ∧ (n.listen l).port = port := by
  have := List.find?_some h
  simpa using this

/-- The listener part either changes nothing or makes and queues one connection. -/
theorem rxListen_cases (n : Net) (now : UInt32) (s : Seg) :
    (¬ Opens n s ∧ (rxListen n now s).1 = n ∧ (rxListen n now s).2.opened = none ∧
        (rxListen n now s).2.accepted = none) ∨
      ∃ l i, Opens n s ∧ findListen n s.dstPort = some l ∧ (n.listen l).aqCount < 2 ∧
        freeSlot n = some i ∧
        (rxListen n now s).1 =
          (n.setConn i (openPassive (n.conns i) now s).1).setListen l (enqueue (n.listen l) i) ∧
        (rxListen n now s).2.opened = some i ∧ (rxListen n now s).2.accepted = none := by
  unfold rxListen
  by_cases hsyn : s.flags &&& (SYN ||| ACK) = SYN
  · rw [if_pos hsyn]
    cases hl : findListen n s.dstPort with
    | none =>
        refine Or.inl ⟨?_, rfl, rfl, rfl⟩
        rintro ⟨_, ⟨l, h, _⟩, _⟩
        rw [hl] at h
        cases h
    | some l =>
        simp only
        by_cases hroom : 2 ≤ (n.listen l).aqCount
        · rw [if_pos hroom]
          refine Or.inl ⟨?_, rfl, rfl, rfl⟩
          rintro ⟨_, ⟨l', h, hlt⟩, _⟩
          rw [hl] at h
          cases h
          exact absurd hroom (Nat.not_le.mpr hlt)
        · rw [if_neg hroom]
          cases hfree : freeSlot n with
          | none => exact Or.inl ⟨fun h => h.2.2 hfree, rfl, rfl, rfl⟩
          | some i =>
              refine Or.inr ⟨l, i, ⟨hsyn, ⟨l, hl, Nat.not_le.mp hroom⟩, ?_⟩, rfl,
                Nat.not_le.mp hroom, rfl, rfl, rfl, rfl⟩
              rw [hfree]
              exact Option.some_ne_none i
  · rw [if_neg hsyn]
    exact Or.inl ⟨fun h => hsyn h.1, rfl, rfl, rfl⟩

/-- A SYN that no connection takes, on a port that is listened on. -/
theorem passive_inv (now : UInt32) {l : Fin listenSlots} (h : TableCore n m) (hcall : CallInv n)
    (hnone : findConn n s = none) (hl : findListen n s.dstPort = some l)
    (hroom : (n.listen l).aqCount < 2) (hfree : freeSlot n = some i) :
    TableCore ((n.setConn i (openPassive (n.conns i) now s).1).setListen l
        (enqueue (n.listen l) i)) ⟨Function.update m.inc i (m.inc i + 1), m.handed⟩ ∧
      CallMid ((n.setConn i (openPassive (n.conns i) now s).1).setListen l
        (enqueue (n.listen l) i)) := by
  obtain ⟨hact, hport⟩ := findListen_spec hl
  have hunused := freeSlot_unused hfree
  have hshape := h.shape l hact
  have hopen : TableCore (n.setConn i (openPassive (n.conns i) now s).1)
      ⟨Function.update m.inc i (m.inc i + 1), m.handed⟩ := by
    apply h.opened hunused
    rintro j hj ⟨h1, h2, h3⟩
    exact findConn_none hnone j ⟨hj, h1, h2, h3⟩
  have hself : (n.setConn i (openPassive (n.conns i) now s).1).conns i =
      (openPassive (n.conns i) now s).1 := by
    simp [Net.setConn]
  constructor
  · apply hopen.enqueue (l := l) hact hroom
    · rw [hself]
      rfl
    · rw [hself]
      exact hport.symm
    · rw [hself]
      exact Or.inl rfl
    · exact h.not_waiting hunused
    · intro hmem
      have hle := h.bound _ hmem
      simp only [Function.update_self] at hle
      exact Nat.not_succ_le_self _ hle
  · -- The slot of a waiting call is used, so it is not the one opened.
    have hother : ∀ id, (n.conns id).used = true → ¬ Waiting n id →
        ¬ Waiting ((n.setConn i (openPassive (n.conns i) now s).1).setListen l
          (enqueue (n.listen l) i)) id ∧
        ((n.setConn i (openPassive (n.conns i) now s).1).setListen l
          (enqueue (n.listen l) i)).conns id = n.conns id := by
      intro id hused hw
      have hne : id ≠ i := by
        rintro rfl
        rw [hused] at hunused
        cases hunused
      constructor
      · intro hw'
        rcases waiting_enqueue (n := n.setConn i (openPassive (n.conns i) now s).1) hshape hroom hw'
          with hw' | rfl
        · exact hw hw'
        · exact hne rfl
      · exact Function.update_of_ne hne _ _
    have hcall' := hcall
    unfold CallInv at hcall'
    unfold CallMid
    have hc : ((n.setConn i (openPassive (n.conns i) now s).1).setListen l
        (enqueue (n.listen l) i)).call = n.call := rfl
    rw [hc]
    cases hcase : n.call with
    | syn id =>
        simp only [hcase] at hcall' ⊢
        obtain ⟨hw, heq⟩ := hother id hcall'.1 hcall'.2.2
        rw [heq]
        exact ⟨hw, Or.inr (Or.inl hcall'.2.1)⟩
    | fin id =>
        simp only [hcase] at hcall' ⊢
        obtain ⟨hw, heq⟩ := hother id hcall'.1 hcall'.2.2.2
        rw [heq]
        exact ⟨hw, Or.inr ⟨hcall'.2.1, hcall'.2.2.1⟩⟩
    | accept lid =>
        simp only [hcase] at hcall' ⊢
        exact (enqueue_listen (n.setConn i (openPassive (n.conns i) now s).1) l lid i).1.trans hcall'
    | idle | arp _ _ _ | recv _ _ => trivial

/-- Writing one entry keeps what the waiting call relies on, if the entry's own
change is one the call can meet. -/
theorem CallInv.setConn_mid {c : TcpConn} (h : CallInv n)
    (hsyn : (n.conns i).state = .synSent → c.used = false ∨ c.state = .synSent ∨
      c.state = .established)
    (hfin : (n.conns i).state ≠ .established → (n.conns i).state ≠ .synSent → c.used = false ∨
      c.state ≠ .established ∧ c.state ≠ .synSent) :
    CallMid (n.setConn i c) := by
  unfold CallInv at h
  unfold CallMid
  have hc : (n.setConn i c).call = n.call := rfl
  rw [hc]
  cases hcase : n.call with
  | syn id =>
      simp only [hcase] at h ⊢
      refine ⟨h.2.2, ?_⟩
      by_cases hid : id = i
      · subst hid
        simpa [Net.setConn] using hsyn h.2.1
      · simp only [Net.setConn, Function.update_of_ne hid]
        exact Or.inr (Or.inl h.2.1)
  | fin id =>
      simp only [hcase] at h ⊢
      refine ⟨h.2.2.2, ?_⟩
      by_cases hid : id = i
      · subst hid
        simpa [Net.setConn] using hfin h.2.1 h.2.2.1
      · simp only [Net.setConn, Function.update_of_ne hid]
        exact Or.inr ⟨h.2.1, h.2.2.1⟩
  | accept lid =>
      simp only [hcase] at h ⊢
      exact h
  | idle | arp _ _ _ | recv _ _ => trivial

/-- A bare SYN does not change which slots are free. -/
theorem freeSlot_setConn {c : TcpConn} (h : c.used = (n.conns i).used) :
    freeSlot (n.setConn i c) = freeSlot n := by
  unfold freeSlot
  congr 1
  funext j
  by_cases hj : j = i
  · subst hj
    simp [Net.setConn, h]
  · simp [Net.setConn, hj]

/-- `tcp_rx_process` on a segment that meets the condition. -/
theorem tcpRxProcess_inv (now : UInt32) (h : TableCore n m) (hcall : CallInv n)
    (hreset : ∀ i, findConn n s = some i → s.has RST → ¬ Waiting n i)
    (hopens : Opens n s → ¬ s.has RST → findConn n s = none) :
    TableCore (tcpRxProcess n now s).1 (m.after (tcpRxProcess n now s).2) ∧
      CallMid (tcpRxProcess n now s).1 ∧ (tcpRxProcess n now s).2.accepted = none := by
  cases hfind : findConn n s with
  | none =>
      simp only [tcpRxProcess, hfind]
      rcases rxListen_cases n now s with ⟨_, hn, hop, hacc⟩ | ⟨l, i, _, hl, hroom, hfree, hn, hop, hacc⟩
      · rw [hn, Accepts.after, hop, hacc]
        exact ⟨h, hcall.mid, rfl⟩
      · obtain ⟨hcore, hmid⟩ := passive_inv now h hcall hfind hl hroom hfree
        rw [hn, Accepts.after, hop, hacc]
        exact ⟨hcore, hmid, rfl⟩
  | some i =>
      by_cases hrst : s.has RST
      · simp only [tcpRxProcess, hfind, if_pos hrst, rxConn]
        refine ⟨?_, hcall.setConn_mid (fun _ => Or.inl rfl) (fun _ _ => Or.inl rfl), trivial⟩
        exact h.setConn ⟨rfl, rfl, rfl⟩ (fun hu => nomatch hu)
          (fun hw => absurd hw (hreset i hfind hrst))
      · have hstep := rxConn_entryStep (c := n.conns i) now hrst
        have hcore : TableCore (n.setConn i (rxConn (n.conns i) now s).1) m := by
          apply h.setConn hstep.peer
          · intro hu
            rcases hstep.used with hsame | ⟨_, _, hfree⟩
            · rw [← hsame]
              exact hu
            · rw [hfree] at hu
              cases hu
          · intro hw
            obtain ⟨hused, hst⟩ := h.used_of_waiting hw
            refine ⟨?_, hstep.acceptable hst⟩
            rcases hstep.used with hsame | ⟨hlast, _, _⟩
            · rw [hsame]
              exact hused
            · rw [hlast] at hst
              rcases hst with hst | hst <;> cases hst
        have hmid : CallMid (n.setConn i (rxConn (n.conns i) now s).1) :=
          hcall.setConn_mid (fun hst => Or.inr (hstep.synSent hst))
            (fun h1 h2 => Or.inr (hstep.closing h1 h2))
        simp only [tcpRxProcess, hfind, if_neg hrst]
        rcases rxListen_cases (n.setConn i (rxConn (n.conns i) now s).1) now s with
          ⟨_, hn, hop, hacc⟩ | ⟨_, _, hopen, _⟩
        · simp only [Accepts.after, hop, hacc, hn]
          exact ⟨hcore, hmid, trivial⟩
        · -- Without ACK the segment released nothing, so the same SYN would have
          -- opened a connection before.
          exfalso
          have hnoack : ¬ s.has ACK := by
            intro hack
            apply hack
            have hsyn := congrArg (fun f => f &&& ACK) hopen.1
            simp only [UInt8.and_assoc, show (SYN ||| ACK) &&& ACK = ACK by decide,
              show SYN &&& ACK = 0 by decide] at hsyn
            exact hsyn
          have hused : (rxConn (n.conns i) now s).1.used = (n.conns i).used := by
            rcases hstep.used with hsame | ⟨_, hack, _⟩
            · exact hsame
            · exact absurd hack hnoack
          have hbefore : Opens n s := by
            refine ⟨hopen.1, hopen.2.1, ?_⟩
            rw [← freeSlot_setConn hused]
            exact hopen.2.2
          rw [hopens hbefore hrst] at hfind
          cases hfind

theorem afterPoll_opened (n : Net) : (afterPoll n).2.opened = none := by
  unfold afterPoll
  cases n.call <;> simp only <;> repeat' split
  all_goals rfl

theorem poll_inv {pkt : Option Seg} (h : TableCore n m) (hcall : CallInv n)
    (hg : tableGuard (n, m) (.poll now pkt)) :
    TableCore (poll n now pkt).1 (m.after (poll n now pkt).2) ∧ CallInv (poll n now pkt).1 := by
  cases pkt with
  | none => exact afterPoll_inv h hcall.mid
  | some s =>
      obtain ⟨hcore, hmid, hacc⟩ := tcpRxProcess_inv now h hcall hg.1 hg.2
      obtain ⟨hcore', hcall'⟩ := afterPoll_inv hcore hmid
      -- The poll opens, the check accepts; the record takes both in this order.
      have hafter : m.after (poll n now (some s)).2 =
          (m.after (tcpRxProcess n now s).2).after (afterPoll (tcpRxProcess n now s).1).2 := by
        simp only [poll, Accepts.after, afterPoll_opened, hacc]
      rw [hafter]
      exact ⟨hcore', hcall'⟩

theorem timeout_inv (h : TableCore n m) (hcall : CallInv n) :
    TableCore (timeout n) m ∧ CallInv (timeout n) := by
  unfold CallInv at hcall
  cases hcase : n.call with
  | syn id =>
      simp only [hcase] at hcall
      simp only [timeout, hcase]
      exact ⟨(h.release hcall.2.2).setCall .idle, trivial⟩
  | fin id =>
      simp only [hcase] at hcall
      simp only [timeout, hcase]
      exact ⟨(h.release hcall.2.2.2).setCall .idle, trivial⟩
  | idle | arp _ _ _ | recv _ _ | accept _ =>
      simp only [timeout, hcase]
      exact ⟨h.setCall .idle, trivial⟩

theorem tick_inv (h : TableCore n m) (hcall : CallInv n)
    (hg : ∀ i, Waiting n i → ¬ TimesOut (n.conns i) now) :
    TableCore (netTcpTick n now).1 m ∧ CallInv (netTcpTick n now).1 := by
  have hkeep : ∀ i, (n.conns i).state ≠ .established →
      (tickConn (n.conns i) now).1.used = (n.conns i).used ∧
        (tickConn (n.conns i) now).1.state = (n.conns i).state := by
    intro i hne
    rcases (tickConn_entry (n.conns i) now).2 with hsame | ⟨hest, _⟩
    · exact hsame
    · exact absurd hest hne
  constructor
  · refine TableCore.shrink h rfl (fun i => (tickConn_entry (n.conns i) now).1) ?_ ?_
    · intro i hu
      rcases (tickConn_entry (n.conns i) now).2 with ⟨hsame, _⟩ | ⟨_, _, hfree⟩
      · rw [← hsame]
        exact hu
      · exact absurd hu (by simp [netTcpTick, hfree])
    · intro i hw
      obtain ⟨hused, hst⟩ := h.used_of_waiting hw
      rcases (tickConn_entry (n.conns i) now).2 with ⟨hu, hs⟩ | ⟨_, hout, _⟩
      · exact ⟨hu.trans hused, by rw [netTcpTick, hs]; exact hst⟩
      · exact absurd hout (hg i hw)
  · unfold CallInv at hcall ⊢
    have hc : (netTcpTick n now).1.call = n.call := rfl
    rw [hc]
    cases hcase : n.call with
    | syn id =>
        simp only [hcase] at hcall ⊢
        obtain ⟨hu, hs⟩ := hkeep id (by rw [hcall.2.1]; decide)
        exact ⟨hu.trans hcall.1, hs.trans hcall.2.1, hcall.2.2⟩
    | fin id =>
        simp only [hcase] at hcall ⊢
        obtain ⟨hu, hs⟩ := hkeep id hcall.2.1
        exact ⟨hu.trans hcall.1, fun h => hcall.2.1 (hs ▸ h), fun h => hcall.2.2.1 (hs ▸ h),
          hcall.2.2.2⟩
    | accept lid =>
        simp only [hcase] at hcall ⊢
        exact hcall
    | idle | arp _ _ _ | recv _ _ => trivial

theorem connectResolved_inv {mac : Mac} (h : TableCore n m) (hcall : CallInv n)
    (hg : tableGuard (n, m) (.resolved now mac)) :
    TableCore (connectResolved n now mac).1 (m.after (connectResolved n now mac).2) ∧
      CallInv (connectResolved n now mac).1 := by
  cases hcase : n.call with
  | arp id ip port =>
      obtain ⟨hfree, hnew⟩ := hg id ip port hcase
      simp only [connectResolved, hcase, Accepts.after]
      constructor
      · have hopen := h.opened (c := (openActive (n.conns id) now mac ip port n.portCtr).1) hfree
          (fun j hj hsame => hnew j hj hsame)
        exact ⟨hopen.unique, hopen.shape, hopen.waiting, hopen.distinct, hopen.fresh, hopen.bound,
          hopen.nodup⟩
      · simp only [CallInv, Net.setConn, Function.update_self]
        exact ⟨rfl, rfl, h.not_waiting hfree⟩
  | idle | syn _ | recv _ _ | fin _ | accept _ =>
      simp only [connectResolved, hcase]
      exact ⟨h, hcall⟩

/-- A call of the interface starts only while no call waits. -/
theorem callStep_inv {op : NetOp} (h : TableCore n m) (hidle : n.call = .idle)
    (hg : tableGuard (n, m) op) :
    TableCore (callStep n op).1 (m.after (callStep n op).2) ∧ CallInv (callStep n op).1 := by
  have hcall : CallInv n := by simp [CallInv, hidle]
  have hset : ∀ i c, CallInv (n.setConn i c) := by
    intro i c
    simp [CallInv, Net.setConn, hidle]
  cases op with
  | connect dstIp dstPort =>
      simp only [callStep, netTcpConnect]
      split
      · exact ⟨h, hcall⟩
      · exact ⟨h.setCall _, trivial⟩
  | send now id data =>
      refine ⟨?_, hset id _⟩
      simp only [callStep, netTcpSend]
      split
      · exact h.setConn ⟨rfl, rfl, rfl⟩ (fun hu => hu) (fun hw => h.used_of_waiting hw)
      · exact h.setConn ⟨rfl, rfl, rfl⟩ (fun hu => hu) (fun hw => h.used_of_waiting hw)
  | recv id maxlen =>
      simp only [callStep]
      split
      · exact ⟨h, hcall⟩
      · exact ⟨h.setCall _, trivial⟩
  | close id =>
      have hw : ¬ Waiting n id := hg
      simp only [callStep, netTcpClose]
      have hcore : TableCore (n.setConn id (closeBegin (n.conns id)).1) m := by
        apply h.setConn
        · unfold closeBegin
          split
          · exact ⟨rfl, rfl, rfl⟩
          · split
            · exact ⟨rfl, rfl, rfl⟩
            · exact ⟨rfl, rfl, rfl⟩
        · unfold closeBegin
          split
          · exact fun hu => hu
          · split
            · exact fun hu => hu
            · exact fun hu => absurd hu (by simp [release])
        · exact fun hh => absurd hh hw
      split
      · next hopen =>
          refine ⟨hcore.setCall _, ?_⟩
          have hused : ¬ (n.conns id).used = false := by simp [hopen.1]
          simp only [CallInv, Net.setConn, Function.update_self, closeBegin, if_neg hused,
            if_pos hopen.2]
          refine ⟨hopen.1, ?_, ?_, hw⟩
          · split <;> decide
          · split <;> decide
      · exact ⟨hcore, hset id _⟩
  | listen port =>
      simp only [callStep, netTcpListen]
      split
      · exact ⟨h, hcall⟩
      · exact ⟨h.listening port, by simp [CallInv, Net.setListen, hidle]⟩
  | accept lid =>
      simp only [callStep]
      split
      · exact ⟨h, hcall⟩
      · next hact =>
          refine ⟨h.setCall _, ?_⟩
          simp only [CallInv]
          simpa using hact
  | unlisten lid => exact ⟨h.unlistening, by simp [CallInv, callStep, Net.setListen, hidle]⟩
  | poll _ _ | timeout | tick _ | resolved _ _ => exact ⟨h, hcall⟩

/-- The table invariant together with the waiting call. -/
def TableInv (s : Net × Accepts) : Prop := TableCore s.1 s.2 ∧ CallInv s.1

theorem tableInv_start : TableInv (Net.boot, ⟨fun _ => 0, []⟩) := by
  refine ⟨⟨?_, ?_, ?_, ?_, ?_, ?_, List.nodup_nil⟩, trivial⟩
  · exact fun _ _ hu => nomatch hu
  · exact fun _ ha => nomatch ha
  · exact fun _ ha => nomatch ha
  · exact fun _ _ _ _ _ ha => nomatch ha
  · rintro i ⟨l, ha, _⟩
    cases ha
  · exact fun x hx => nomatch hx

theorem tableInv_step {s : Net × Accepts} {op : NetOp} (h : TableInv s) (hg : tableGuard s op) :
    TableInv (tableStep s op) := by
  obtain ⟨n, m⟩ := s
  cases op with
  | poll now pkt => exact poll_inv h.1 h.2 hg
  | timeout => exact timeout_inv h.1 h.2
  | tick now => exact tick_inv h.1 h.2 hg
  | resolved now mac => exact connectResolved_inv h.1 h.2 hg
  | connect _ _ | send _ _ _ | recv _ _ | close _ | listen _ | accept _ | unlisten _ =>
      simp only [tableStep, netStep]
      split
      · next hidle => exact callStep_inv h.1 hidle hg
      · exact h

end Step

/-- In every run whose steps meet the condition, used connections differ in
their addresses, queued slots are used connections on their listener's port,
and no incarnation is accepted twice. -/
theorem table_ok (s : Net × Accepts) (r : Reach TableStart tableGuard tableStep s) :
    TableOk s := by
  have hinv : TableInv s := by
    apply Reach.invariant (P := TableInv) ?_ (fun _ _ h hg => tableInv_step h hg) r
    rintro _ rfl
    exact tableInv_start
  refine ⟨hinv.1.unique, ?_, hinv.1.nodup⟩
  intro l hl k hk
  obtain ⟨i, hq, hused, hport, _⟩ := hinv.1.waiting l hl k hk
  exact ⟨i, hq, hused, hport⟩

/-- A SYN from 10.0.2.2 port 5000 to port 80. -/
def clientSyn : Seg := Seg.bare 5000 80 0 SYN

/-- A client connects to a listener and is accepted. -/
theorem table_ok_one_client :
    TableOk ([NetOp.listen 80, .poll 0 (some clientSyn), .accept 0, .poll 0 none].foldl tableStep
      (Net.boot, ⟨fun _ => 0, []⟩)) := by
  apply table_ok
  apply Reach.next _ _ trivial
  apply Reach.next _ _ trivial
  apply Reach.next
  · apply Reach.next _ _ trivial
    exact Reach.start rfl
  · exact ⟨fun i hi => absurd hi (by decide +revert), fun _ _ => by decide⟩

/-- The client's SYN is sent again before it is accepted: a second connection
to the same peer is made. -/
theorem repeated_syn_duplicates_connection :
    ¬ ∀ s, Reach TableStart anyInput tableStep s → TableOk s := by
  intro hall
  have hreach : Reach TableStart anyInput tableStep
      ([NetOp.listen 80, .poll 0 (some clientSyn), .poll 0 (some clientSyn)].foldl tableStep
        (Net.boot, ⟨fun _ => 0, []⟩)) := by
    apply Reach.next _ _ trivial
    apply Reach.next _ _ trivial
    apply Reach.next _ _ trivial
    exact Reach.start rfl
  have hsame := (hall _ hreach).unique 0 1 (by decide) (by decide)
    ⟨by decide, by decide, by decide⟩
  exact absurd hsame (by decide)

end OriaOS.Tcp
