import Ebpf101.Tcp.Tcplife

/-!
# Whose connection tcplife reports

`tcplife.h` documents the pid of a summary as the owner, stashed at `SYN_SENT`.
`handle_set_state` stashes the identity at `LAST_ACK` as well, over the one that is
there. A socket may be shared: a child that inherited it, or a process that it was
passed to, can be the one to close it after the peer did.

Results:
1. `opener_reported_iff`: every summary of a connection whose `SYN_SENT` was seen
   names the task that opened it if and only if the last `LAST_ACK` of each such
   connection is the opener's own.
   `last_ack_reported`: a shared socket that another process closes is reported as
   that process's.
-/

namespace Ebpf101.Tcp.Tcplife

open Runs

/-! ## Statements -/

/-- In the connection `conn`, `o` is the transition to `SYN_SENT` and `rest` is what
followed; no entry of the connection was evicted since. -/
structure OpenedBy (conn : List Input) (o : Transition) (rest : List Input) : Prop where
  split : ∃ before, conn = before ++ .transition o :: rest
  synSent : o.state = .synSent
  inet : isInet o.sock.family = true
  once : ∀ t, .transition t ∈ rest → t.state ≠ .synSent
  kept : ∀ sk, .evictBirth sk ∉ rest ∧ .evictIdent sk ∉ rest

/-- The transitions to `LAST_ACK`. -/
def lastAcks (is : List Input) : List Transition :=
  is.filterMap fun
    | .transition t => if isInet t.sock.family && t.state = .lastAck then some t else none
    | _ => none

/-- A transition that closes a connection over IP and finds room in the ring. -/
structure Reports (c : Transition) : Prop where
  inet : isInet c.sock.family = true
  closes : c.state = .close
  room : c.room = true

/-- The summary of a connection that was opened by `o` names the task of `o`. -/
def ReportsOpenerAt (pre : List Input) : Input → Prop
  | .transition c => Reports c → ∀ o rest, OpenedBy (connection c.sk pre) o rest →
      ∃ e, (step (after pre) (.transition c)).2 = some e ∧
        e.pid = o.cur.pid ∧ e.comm = o.cur.comm
  | _ => True

/-- The last `LAST_ACK` of a connection, if it has one, ran in the context of the task
that opened the connection. -/
def OpenerClosesAt (pre : List Input) : Input → Prop
  | .transition c => Reports c → ∀ o rest, OpenedBy (connection c.sk pre) o rest →
      ∀ u, (lastAcks rest).getLast? = some u → u.cur = o.cur
  | _ => True

namespace OpenerLemmas

open TcplifeLemmas

/-! ## What the maps keep of a connection -/

/-- The maps hold at least what the present connections left in them. Unlike `Holds`
this needs no condition: a connection that captured an identity overwrote whatever an
earlier one left behind. -/
def Keeps (is : List Input) (m : Maps) : Prop :=
  ∀ sk, (birth (connection sk is) ≠ none → m.births.lookupElem sk ≠ none) ∧
    ∀ who, identity (connection sk is) = some who → m.idents.lookupElem sk = some who

theorem keeps_transition {pre : List Input} {m : Maps} (h : Keeps pre m) (t : Transition) :
    Keeps (pre ++ [.transition t]) (handleSetState m t).1 := by
  intro sk
  obtain ⟨hbirth, hident⟩ := h sk
  rw [connection_snoc, births_transition, idents_transition]
  simp only [Input.sk, Input.closes, decide_eq_true_eq]
  rcases eq_or_ne t.sk sk with rfl | hne
  · rcases eq_or_ne t.state .close with hc | hc
    · simp [hc, birth, identity]
    · simp only [ne_eq, not_true_eq_false, if_false, hc, birth_snoc, identity_snoc, false_and,
        and_false]
      constructor
      · split
        · exact fun _ => Option.some_ne_none _
        · exact hbirth
      · split
        · exact fun _ hw => hw
        · exact hident
  · simp only [ne_eq, hne, hne.symm, not_false_eq_true, if_true]
    exact ⟨hbirth, hident⟩

theorem keeps_evictBirth {pre : List Input} {m : Maps} (h : Keeps pre m) (s : SkAddr) :
    Keeps (pre ++ [.evictBirth s]) { m with births := m.births.deleteElem s } := by
  intro sk
  rw [connection_snoc]
  simp only [Input.sk, Input.closes, BpfMap.lookupElem_deleteElem]
  rcases eq_or_ne s sk with rfl | hne
  · simpa [birth_snoc, identity_snoc] using (h s).2
  · simpa [hne, hne.symm] using h sk

theorem keeps_evictIdent {pre : List Input} {m : Maps} (h : Keeps pre m) (s : SkAddr) :
    Keeps (pre ++ [.evictIdent s]) { m with idents := m.idents.deleteElem s } := by
  intro sk
  rw [connection_snoc]
  simp only [Input.sk, Input.closes, BpfMap.lookupElem_deleteElem]
  rcases eq_or_ne s sk with rfl | hne
  · simpa [birth_snoc, identity_snoc] using (h s).1
  · simpa [hne, hne.symm] using h sk

theorem keeps_run (is : List Input) : Keeps is (after is) := by
  induction is using List.reverseRecOn with
  | nil => exact fun _ => ⟨fun h => absurd rfl h, fun _ h => nomatch h⟩
  | append_singleton is i ih =>
    rw [after, exec_snoc]
    cases i with
    | transition t => exact keeps_transition ih t
    | evictBirth sk => exact keeps_evictBirth ih sk
    | evictIdent sk => exact keeps_evictIdent ih sk

/-! ## What a connection that was opened holds -/

theorem lastAcks_snoc (is : List Input) (i : Input) :
    lastAcks (is ++ [i]) =
      lastAcks is ++ match i with
        | .transition t => if isInet t.sock.family && t.state = .lastAck then [t] else []
        | _ => [] := by
  unfold lastAcks
  rw [List.filterMap_append]
  congr 1
  cases i with
  | transition t =>
    simp only [List.filterMap_cons, List.filterMap_nil]
    split
    · next h => split at h <;> simp_all
    · next h => split at h <;> simp_all
  | evictBirth sk => rfl
  | evictIdent sk => rfl

/-- The task of the last `LAST_ACK`, or that of the opener. -/
def closer (o : Transition) (rest : List Input) : Task :=
  ((lastAcks rest).getLast?.map Transition.cur).getD o.cur

theorem opened_holds (before : List Input) {rest : List Input} {o : Transition}
    (hsyn : o.state = .synSent) (hinet : isInet o.sock.family = true)
    (honce : ∀ t, .transition t ∈ rest → t.state ≠ .synSent)
    (hkept : ∀ sk, .evictBirth sk ∉ rest ∧ .evictIdent sk ∉ rest) :
    birth (before ++ .transition o :: rest) ≠ none ∧
    identity (before ++ .transition o :: rest) = some (closer o rest) := by
  induction rest using List.reverseRecOn with
  | nil =>
    rw [birth_snoc, identity_snoc]
    simp [hinet, hsyn, captures, capturesIn, closer, lastAcks, show opens .synSent = true by decide]
  | append_singleton rest i ih =>
    obtain ⟨hbirth, hident⟩ := ih (fun t ht => honce t (List.mem_append_left _ ht))
      (fun sk => ⟨fun h => (hkept sk).1 (List.mem_append_left _ h),
        fun h => (hkept sk).2 (List.mem_append_left _ h)⟩)
    rw [← List.cons_append, ← List.append_assoc, birth_snoc, identity_snoc, closer, lastAcks_snoc]
    cases i with
    | evictBirth sk => exact absurd (by simp) (hkept sk).1
    | evictIdent sk => exact absurd (by simp) (hkept sk).2
    | transition t =>
      have ht : t.state ≠ .synSent := honce t (by simp)
      constructor
      · show (if _ then _ else _) ≠ none
        split
        · exact Option.some_ne_none _
        · exact hbirth
      · have hcap : captures t = (isInet t.sock.family && t.state = .lastAck) := by
          simp [captures, capturesIn, ht]
        simp only [hcap]
        split
        · rw [List.getLast?_concat]
          rfl
        · rw [hident, List.append_nil]
          rfl

/-- The summary of a connection that was opened by `o`. -/
theorem summary_opened {pre rest : List Input} {c o : Transition} (hc : Reports c)
    (hopen : OpenedBy (connection c.sk pre) o rest) :
    ∃ born, (step (after pre) (.transition c)).2 = some (summary c born (closer o rest)) := by
  obtain ⟨⟨before, hconn⟩, hsyn, hinet, honce, hkept⟩ := hopen
  obtain ⟨hbirth, hident⟩ := opened_holds before hsyn hinet honce hkept
  obtain ⟨hb, hi⟩ := keeps_run pre c.sk
  rw [hconn] at hb hi
  obtain ⟨born, hborn⟩ := Option.ne_none_iff_exists'.mp (hb hbirth)
  refine ⟨born, ?_⟩
  simp [step, handleSetState, hc.inet, hc.closes, hc.room, show opens .close = false by decide,
    show capturesIn .close = false by decide, hborn, hi _ hident]

theorem reportsOpenerAt_iff (pre : List Input) (i : Input) :
    ReportsOpenerAt pre i ↔ OpenerClosesAt pre i := by
  cases i with
  | evictBirth sk => exact Iff.rfl
  | evictIdent sk => exact Iff.rfl
  | transition c =>
    refine imp_congr_right fun hc => forall_congr' fun o => forall_congr' fun rest =>
      imp_congr_right fun hopen => ?_
    obtain ⟨born, hout⟩ := summary_opened hc hopen
    rw [hout]
    constructor
    · rintro ⟨e, he, hpid, hcomm⟩ u hu
      cases he
      have hcloser : closer o rest = u.cur := by rw [closer, hu]; rfl
      have heq : closer o rest = o.cur := congrArg₂ Task.mk hpid hcomm
      rw [← hcloser, heq]
    · intro hall
      have heq : closer o rest = o.cur := by
        rw [closer]
        cases hlast : (lastAcks rest).getLast? with
        | none => rfl
        | some u => exact hall u hlast
      exact ⟨_, rfl, congrArg Task.pid heq, congrArg Task.comm heq⟩

end OpenerLemmas

open OpenerLemmas

/-! ## 1. The opener of a connection -/

/-- For every run, whatever the other sockets do. -/
theorem opener_reported_iff (is : List Input) :
    Along ReportsOpenerAt is ↔ Along OpenerClosesAt is :=
  ⟨fun h => h.mono fun pre i hi => (reportsOpenerAt_iff pre i).mp hi,
    fun h => h.mono fun pre i hi => (reportsOpenerAt_iff pre i).mpr hi⟩

/-- Pid 10 opens a connection and its child, pid 20, has the socket when the peer closes. -/
def exShared : List Input :=
  [.transition ⟨1, exSock, .synSent, 1000, ⟨10, Comm.ofBytes [111]⟩, true⟩,
   .transition ⟨1, exSock, .established, 2000, ⟨0, Comm.ofBytes [110]⟩, true⟩,
   .transition ⟨1, exSock, .closeWait, 3000, ⟨0, Comm.ofBytes [110]⟩, true⟩,
   .transition ⟨1, exSock, .lastAck, 4000, ⟨20, Comm.ofBytes [112]⟩, true⟩,
   .transition ⟨1, exSock, .close, 5000, ⟨0, Comm.ofBytes [110]⟩, true⟩]

/-- The summary names pid 20. -/
theorem last_ack_reported :
    ¬ Along ReportsOpenerAt exShared ∧
    (outs step Maps.empty exShared).map (fun e => e.map Summary.pid) =
      [none, none, none, none, some 20] := by
  refine ⟨fun h => ?_, by decide +kernel⟩
  obtain ⟨e, he, hpid, -⟩ := h (exShared.take 4)
    (.transition ⟨1, exSock, .close, 5000, ⟨0, Comm.ofBytes [110]⟩, true⟩) [] rfl
    ⟨by decide, rfl, rfl⟩ ⟨1, exSock, .synSent, 1000, ⟨10, Comm.ofBytes [111]⟩, true⟩
    ((exShared.take 4).drop 1)
    ⟨⟨[], by decide +kernel⟩, rfl, by decide, by simp [exShared], by simp [exShared]⟩
  have hout : (step (after (exShared.take 4)) (.transition
      ⟨1, exSock, .close, 5000, ⟨0, Comm.ofBytes [110]⟩, true⟩)).2.map Summary.pid = some 20 := by
    decide +kernel
  rw [he, Option.map_some, hpid] at hout
  exact absurd hout (by decide)

end Ebpf101.Tcp.Tcplife
