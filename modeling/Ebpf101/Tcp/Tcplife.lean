import Ebpf101.Tcp.Basic
import Ebpf101.Lib.Runs

/-!
# tcplife

`13-tcplife/tcplife.bpf.c` stamps the birth of a connection, stashes the
identity of its owner at the two transitions that run in process context, and
emits one summary at `TCP_CLOSE`. Both maps are keyed by the socket's address,
which the kernel reuses.

Results:
1. `no_identity_crosses_iff`: after every `TCP_CLOSE` neither map holds the
   address, and every summary's identity comes from its own connection, if and
   only if no connection that holds an identity is closed without a birth.
   `stale_identity_reported`: the handler returns early when there is no birth,
   and then leaves the identity behind for the next socket at that address.
-/

namespace Ebpf101.Tcp.Tcplife

open Runs

/-! ## The probe -/

/-- `births` and `idents`. -/
structure Maps where
  births : BpfMap SkAddr Nat
  idents : BpfMap SkAddr Task
deriving DecidableEq

/-- `struct event`: the summary of one connection. -/
structure Summary where
  skaddr : SkAddr
  txB : Nat
  rxB : Nat
  spanUs : Nat
  pid : Pid
  srttUs : Nat
  totalRetrans : Nat
  family : Nat
  sport : UInt16
  dport : UInt16
  saddr : List UInt8
  daddr : List UInt8
  comm : Comm
deriving DecidableEq

/-- The states below `TCP_FIN_WAIT1` open a connection. -/
def opens (state : TcpState) : Bool := state.num < TcpState.finWait1.num

/-- The identity is captured where the owner's own context runs. -/
def capturesIn (state : TcpState) : Bool := state = .synSent || state = .lastAck

/-- The record that is filled in at `TCP_CLOSE`. -/
def summary (t : Transition) (birth : Nat) (who : Task) : Summary where
  skaddr := t.sk
  txB := t.sock.bytesAcked
  rxB := t.sock.bytesReceived
  spanUs := u64Sub t.now birth / 1000
  pid := who.pid
  srttUs := t.sock.srttUs / 8
  totalRetrans := t.sock.totalRetrans
  family := t.sock.family
  sport := t.sock.num
  dport := ntohs t.sock.dport
  saddr := if t.sock.family = AF_INET then t.sock.rcvSaddr else t.sock.v6RcvSaddr
  daddr := if t.sock.family = AF_INET then t.sock.daddr else t.sock.v6Daddr
  comm := who.comm

/-- `handle_set_state` of chapter 13. -/
def handleSetState (m : Maps) (t : Transition) : Maps × Option Summary :=
  if !isInet t.sock.family then (m, none)
  else
    -- `BPF_NOEXIST`: the earliest opening transition wins
    let births := if opens t.state then m.births.insertAt 0 t.sk t.now else m.births
    let idents := if capturesIn t.state then m.idents.setElem 0 t.sk t.cur else m.idents
    if t.state ≠ .close then (⟨births, idents⟩, none)
    else
      match births.lookupElem t.sk with
      | none => (⟨births, idents⟩, none)
      | some birth =>
        let who := (idents.lookupElem t.sk).getD t.cur
        let cleaned : Maps := ⟨births.deleteElem t.sk, idents.deleteElem t.sk⟩
        (cleaned, if t.room then some (summary t birth who) else none)

/-! ## Runs -/

/-- A transition, or one of the LRU maps dropping an entry. -/
inductive Input where
  | transition (t : Transition)
  | evictBirth (sk : SkAddr)
  | evictIdent (sk : SkAddr)
deriving DecidableEq

def Maps.empty : Maps := ⟨BpfMap.empty, BpfMap.empty⟩

def step (m : Maps) : Input → Maps × Option Summary
  | .transition t => handleSetState m t
  | .evictBirth sk => ({ m with births := m.births.deleteElem sk }, none)
  | .evictIdent sk => ({ m with idents := m.idents.deleteElem sk }, none)

/-- The maps after a run that starts when the tool is attached. -/
def after (is : List Input) : Maps := exec step Maps.empty is

/-- The socket an input is about. -/
def Input.sk : Input → SkAddr
  | .transition t => t.sk
  | .evictBirth sk => sk
  | .evictIdent sk => sk

/-- The input ends the connection of its socket. -/
def Input.closes : Input → Bool
  | .transition t => t.state = .close
  | _ => false

/-- The present connection of `sk`: what happened to it since its last close. -/
def connection (sk : SkAddr) (is : List Input) : List Input :=
  is.foldl (fun conn i =>
    if i.sk ≠ sk then conn else if i.closes then [] else conn ++ [i]) []

/-- A transition that captures the identity of its socket's owner. -/
def captures (t : Transition) : Bool := isInet t.sock.family && capturesIn t.state

/-- The identity a connection holds: its last capture that was not evicted. -/
def identity (conn : List Input) : Option Task :=
  conn.foldl (fun who i =>
    match i with
    | .transition t => if captures t then some t.cur else who
    | .evictBirth _ => who
    | .evictIdent _ => none) none

/-- The birth a connection holds: its first opening transition since its last
eviction. -/
def birth (conn : List Input) : Option Nat :=
  conn.foldl (fun born i =>
    match i with
    | .transition t =>
      if isInet t.sock.family && opens t.state then some (born.getD t.now) else born
    | .evictBirth _ => none
    | .evictIdent _ => born) none

/-! ## Statements -/

/-- Once a close is processed, neither map holds its socket. -/
def CleanAt (pre : List Input) : Input → Prop
  | .transition t => t.state = .close →
      ((step (after pre) (.transition t)).1.births.lookupElem t.sk = none ∧
       (step (after pre) (.transition t)).1.idents.lookupElem t.sk = none)
  | _ => True

/-- The identity of a summary was captured in its own connection, or is that of
the task current at the close; the latter only if the connection captured none
or its entry was evicted. -/
def OwnIdentityAt (pre : List Input) : Input → Prop
  | .transition t => ∀ e, (step (after pre) (.transition t)).2 = some e →
      (∃ u, .transition u ∈ connection t.sk pre ∧ captures u = true ∧
        e.pid = u.cur.pid ∧ e.comm = u.cur.comm) ∨
      (e.pid = t.cur.pid ∧ e.comm = t.cur.comm ∧
        ((∀ u, .transition u ∈ connection t.sk pre → captures u = false) ∨
          .evictIdent t.sk ∈ connection t.sk pre))
  | _ => True

/-- A connection over IP that holds an identity when it is closed holds a birth
as well; one of another family holds neither. -/
def BornAt (pre : List Input) : Input → Prop
  | .transition t => t.state = .close →
      (if isInet t.sock.family then
        identity (connection t.sk pre) ≠ none → birth (connection t.sk pre) ≠ none
      else
        birth (connection t.sk pre) = none ∧ identity (connection t.sk pre) = none)
  | _ => True

namespace TcplifeLemmas

/-! ## One step -/

/-- What a transition does to the identity of a socket. -/
theorem idents_transition (m : Maps) (t : Transition) (sk : SkAddr) :
    (handleSetState m t).1.idents.lookupElem sk =
      if sk ≠ t.sk then m.idents.lookupElem sk
      else if captures t then some t.cur
      else if isInet t.sock.family = true ∧ t.state = .close ∧ m.births.lookupElem t.sk ≠ none then
        none
      else m.idents.lookupElem sk := by
  unfold handleSetState captures
  cases hf : isInet t.sock.family with
  | false => simp
  | true =>
    by_cases hc : t.state = .close
    · simp only [hc, opens, capturesIn, TcpState.num]
      cases hb : m.births.lookupElem t.sk with
      | none => simp [hb]
      | some birth =>
        by_cases hsk : sk = t.sk <;> simp [hb, BpfMap.lookupElem_deleteElem, hsk]
    · cases hcap : capturesIn t.state with
      | false => simp [hc]
      | true => by_cases hsk : sk = t.sk <;> simp [hc, BpfMap.lookupElem_setElem, hsk]

/-- What a transition does to the birth of a socket. -/
theorem births_transition (m : Maps) (t : Transition) (sk : SkAddr) :
    (handleSetState m t).1.births.lookupElem sk =
      if sk ≠ t.sk then m.births.lookupElem sk
      else if isInet t.sock.family && opens t.state then
        some ((m.births.lookupElem sk).getD t.now)
      else if isInet t.sock.family = true ∧ t.state = .close then none
      else m.births.lookupElem sk := by
  unfold handleSetState
  cases hf : isInet t.sock.family with
  | false => simp
  | true =>
    by_cases hc : t.state = .close
    · simp only [hc, opens, capturesIn, TcpState.num]
      cases hb : m.births.lookupElem t.sk with
      | none => by_cases hsk : sk = t.sk <;> simp [hb, hsk]
      | some born => by_cases hsk : sk = t.sk <;> simp [hb, BpfMap.lookupElem_deleteElem, hsk]
    · cases hop : opens t.state with
      | false => simp [hc]
      | true =>
        by_cases hsk : sk = t.sk <;> simp [hc, BpfMap.lookupElem_insertAt_getD, hsk]

/-- A summary is emitted at a close, with the stashed identity if there is one. -/
theorem summary_emitted {m : Maps} {t : Transition} {e : Summary}
    (h : (handleSetState m t).2 = some e) :
    isInet t.sock.family = true ∧ t.state = .close ∧
    ∃ birth, m.births.lookupElem t.sk = some birth ∧
      e = summary t birth ((m.idents.lookupElem t.sk).getD t.cur) := by
  unfold handleSetState at h
  cases hf : isInet t.sock.family with
  | false => simp [hf] at h
  | true =>
    by_cases hc : t.state = .close
    · simp only [hf, hc, opens, capturesIn, TcpState.num] at h
      cases hb : m.births.lookupElem t.sk with
      | none => simp [hb] at h
      | some birth =>
        simp [hb] at h
        exact ⟨rfl, hc, birth, rfl, h.2.symm⟩
    · simp [hf, hc] at h

/-! ## Connections -/

theorem connection_snoc (sk : SkAddr) (is : List Input) (i : Input) :
    connection sk (is ++ [i]) =
      if i.sk ≠ sk then connection sk is
      else if i.closes then [] else connection sk is ++ [i] := by
  simp [connection]

theorem identity_snoc (conn : List Input) (i : Input) :
    identity (conn ++ [i]) =
      match i with
      | .transition t => if captures t then some t.cur else identity conn
      | .evictBirth _ => identity conn
      | .evictIdent _ => none := by
  unfold identity
  rw [List.foldl_append, List.foldl_cons, List.foldl_nil]

theorem birth_snoc (conn : List Input) (i : Input) :
    birth (conn ++ [i]) =
      match i with
      | .transition t =>
        if isInet t.sock.family && opens t.state then some ((birth conn).getD t.now)
        else birth conn
      | .evictBirth _ => none
      | .evictIdent _ => birth conn := by
  unfold birth
  rw [List.foldl_append, List.foldl_cons, List.foldl_nil]

/-- An identity that a connection holds was captured by one of its transitions. -/
theorem identity_captured {conn : List Input} {who : Task} (h : identity conn = some who) :
    ∃ u, .transition u ∈ conn ∧ captures u = true ∧ who = u.cur := by
  induction conn using List.reverseRecOn with
  | nil => cases h
  | append_singleton conn i ih =>
    have hold : identity conn = some who →
        ∃ u, .transition u ∈ conn ++ [i] ∧ captures u = true ∧ who = u.cur := by
      intro hc
      obtain ⟨u, hu, hcap, hw⟩ := ih hc
      exact ⟨u, List.mem_append_left _ hu, hcap, hw⟩
    rw [identity_snoc] at h
    cases i with
    | transition t =>
      cases hcap : captures t with
      | true =>
        simp only [hcap, if_true, Option.some.injEq] at h
        exact ⟨t, by simp, hcap, h.symm⟩
      | false =>
        simp only [hcap, Bool.false_eq_true, if_false] at h
        exact hold h
    | evictBirth sk => exact hold h
    | evictIdent sk => cases h

/-- A connection that holds no identity captured none, or lost it. -/
theorem identity_none {conn : List Input} (h : identity conn = none) :
    (∀ u, .transition u ∈ conn → captures u = false) ∨ ∃ sk, .evictIdent sk ∈ conn := by
  induction conn using List.reverseRecOn with
  | nil => exact Or.inl fun u hu => absurd hu List.not_mem_nil
  | append_singleton conn i ih =>
    have hold : identity conn = none → (∀ t, i = .transition t → captures t = false) →
        (∀ u, .transition u ∈ conn ++ [i] → captures u = false) ∨
          ∃ sk, .evictIdent sk ∈ conn ++ [i] := by
      intro hc hi
      rcases ih hc with hall | ⟨sk, hsk⟩
      · refine Or.inl fun u hu => ?_
        rcases List.mem_append.mp hu with hu | hu
        · exact hall u hu
        · exact hi u (List.mem_singleton.mp hu).symm
      · exact Or.inr ⟨sk, List.mem_append_left _ hsk⟩
    rw [identity_snoc] at h
    cases i with
    | transition t =>
      cases hcap : captures t with
      | true => simp [hcap] at h
      | false =>
        simp only [hcap, Bool.false_eq_true, if_false] at h
        refine hold h fun t' ht' => ?_
        cases ht'
        exact hcap
    | evictBirth sk => exact hold h fun t ht => nomatch ht
    | evictIdent sk => exact Or.inr ⟨sk, by simp⟩

theorem connection_sk {sk : SkAddr} {is : List Input} {i : Input} (h : i ∈ connection sk is) :
    i.sk = sk := by
  induction is using List.reverseRecOn with
  | nil => exact absurd h List.not_mem_nil
  | append_singleton is j ih =>
    rw [connection_snoc] at h
    split at h
    · exact ih h
    · next hj =>
      split at h
      · exact absurd h List.not_mem_nil
      · rcases List.mem_append.mp h with h | h
        · exact ih h
        · rw [List.mem_singleton] at h
          rw [h]
          exact Decidable.not_not.mp hj

/-! ## Whole runs -/

/-- The maps hold, of each socket, what its present connection left there. -/
def Holds (is : List Input) (m : Maps) : Prop :=
  ∀ sk, m.births.lookupElem sk = birth (connection sk is) ∧
    m.idents.lookupElem sk = identity (connection sk is)

/-- A transition that does not close its connection, or that leaves the maps
clean, keeps `Holds`. -/
theorem holds_transition {pre : List Input} {m : Maps} {t : Transition} (h : Holds pre m)
    (hclean : t.state = .close → (handleSetState m t).1.births.lookupElem t.sk = none ∧
      (handleSetState m t).1.idents.lookupElem t.sk = none) :
    Holds (pre ++ [.transition t]) (handleSetState m t).1 := by
  intro sk
  rw [connection_snoc]
  by_cases hsk : sk = t.sk
  · subst hsk
    by_cases hc : t.state = .close
    · have hcl : Input.closes (.transition t) = true := by simp [Input.closes, hc]
      simp only [Input.sk, hcl, ne_eq, not_true_eq_false, if_false, if_true]
      exact hclean hc
    · have hcl : Input.closes (.transition t) = false := by simp [Input.closes, hc]
      simp only [Input.sk, hcl, ne_eq, not_true_eq_false, if_false, Bool.false_eq_true,
        births_transition, idents_transition, birth_snoc, identity_snoc, hc, false_and, and_false]
      rw [(h t.sk).1, (h t.sk).2]
      exact ⟨rfl, rfl⟩
  · simp only [Input.sk, ne_eq, hsk, Ne.symm hsk, not_false_eq_true, if_true, births_transition,
      idents_transition]
    exact h sk

/-- As long as every close leaves the maps clean, they hold what the present
connections left there. -/
theorem holds_of_clean {is : List Input} (h : Along CleanAt is) : Holds is (after is) := by
  refine exec_history (Q := CleanAt) Holds (fun sk => ⟨rfl, rfl⟩) ?_ is h
  intro pre i _ hclean ih
  cases i with
  | transition t => exact holds_transition ih hclean
  | evictBirth s =>
    intro sk
    rw [connection_snoc]
    by_cases hsk : s = sk
    · simpa [Input.sk, Input.closes, hsk, birth_snoc, identity_snoc, step,
        BpfMap.lookupElem_deleteElem] using (ih sk).2
    · simpa [Input.sk, hsk, step, BpfMap.lookupElem_deleteElem, Ne.symm hsk] using ih sk
  | evictIdent s =>
    intro sk
    rw [connection_snoc]
    by_cases hsk : s = sk
    · simpa [Input.sk, Input.closes, hsk, birth_snoc, identity_snoc, step,
        BpfMap.lookupElem_deleteElem] using (ih sk).1
    · simpa [Input.sk, hsk, step, BpfMap.lookupElem_deleteElem, Ne.symm hsk] using ih sk

/-- While the maps hold what the connections left, the close that goes wrong is
exactly that of an identity without a birth. -/
theorem cleanAt_iff {pre : List Input} (h : Holds pre (after pre)) (i : Input) :
    CleanAt pre i ↔ BornAt pre i := by
  cases i with
  | evictBirth sk => exact Iff.rfl
  | evictIdent sk => exact Iff.rfl
  | transition t =>
    refine imp_congr_right fun hc => ?_
    have hcap : captures t = false := by simp [captures, capturesIn, hc]
    have hop : opens .close = false := by decide
    simp only [step, births_transition, idents_transition, hcap, hop, hc, (h t.sk).1, (h t.sk).2]
    cases hf : isInet t.sock.family with
    | false => simp
    | true => by_cases hb : birth (connection t.sk pre) = none <;> simp [hb]

theorem along_clean_iff (is : List Input) : Along CleanAt is ↔ Along BornAt is := by
  induction is using List.reverseRecOn with
  | nil => simp
  | append_singleton pre i ih =>
    rw [along_snoc, along_snoc, ← ih]
    exact and_congr_right fun h => cleanAt_iff (holds_of_clean h) i

theorem ownIdentityAt_of_clean {pre : List Input} (h : Along CleanAt pre) (i : Input) :
    OwnIdentityAt pre i := by
  cases i with
  | evictBirth sk => trivial
  | evictIdent sk => trivial
  | transition t =>
    intro e he
    obtain ⟨-, -, born, -, rfl⟩ := summary_emitted he
    rw [(holds_of_clean h t.sk).2]
    cases hid : identity (connection t.sk pre) with
    | some who =>
      obtain ⟨u, hu, hcap, rfl⟩ := identity_captured hid
      exact Or.inl ⟨u, hu, hcap, rfl, rfl⟩
    | none =>
      refine Or.inr ⟨rfl, rfl, ?_⟩
      rcases identity_none hid with hall | ⟨sk, hsk⟩
      · exact Or.inl hall
      · exact Or.inr (connection_sk hsk ▸ hsk)

end TcplifeLemmas

open TcplifeLemmas

/-! ## 1. No identity crosses connections -/

/-- Over any run, with any evictions and any full rings: every close leaves the
maps clean and every summary carries an identity of its own connection if and
only if no connection that holds an identity is closed without a birth. -/
theorem no_identity_crosses_iff (is : List Input) :
    Along (fun pre i => CleanAt pre i ∧ OwnIdentityAt pre i) is ↔ Along BornAt is := by
  rw [← along_clean_iff]
  constructor
  · exact fun h => h.mono fun _ _ hi => hi.1
  · intro h pre i post he
    have hpre : Along CleanAt pre := (he ▸ h).left
    exact ⟨h pre i post he, ownIdentityAt_of_clean hpre i⟩

/-- A socket as the probe sees it: IPv4, all counters zero. -/
def exSock : SockView :=
  ⟨AF_INET, .established, 80, 0x1f90, [127, 0, 0, 1], [127, 0, 0, 1], [], [], 0, 0, 0, 0⟩

/-- The tool is attached while a connection at address 1 is established. Its
owner, pid 10, closes it passively; then pid 20 accepts a connection on a socket
that reuses the address, and closes it. -/
def exReuse : List Input :=
  [.transition ⟨1, exSock, .lastAck, 1000, ⟨10, Comm.ofBytes [111]⟩, true⟩,
   .transition ⟨1, exSock, .close, 2000, ⟨10, Comm.ofBytes [111]⟩, true⟩,
   .transition ⟨1, exSock, .established, 3000, ⟨20, Comm.ofBytes [110]⟩, true⟩,
   .transition ⟨1, exSock, .finWait1, 4000, ⟨20, Comm.ofBytes [110]⟩, true⟩,
   .transition ⟨1, exSock, .close, 5000, ⟨20, Comm.ofBytes [110]⟩, true⟩]

/-- The first close finds no birth and returns before the cleanup; the summary
of the second connection then names pid 10. -/
theorem stale_identity_reported :
    ¬ Along (fun pre i => CleanAt pre i ∧ OwnIdentityAt pre i) exReuse ∧
    (outs step Maps.empty exReuse).map (fun e => e.map Summary.pid) =
      [none, none, none, none, some 10] := by
  refine ⟨fun h => ?_, by decide +kernel⟩
  have hclean := (h (exReuse.take 1) (.transition ⟨1, exSock, .close, 2000,
    ⟨10, Comm.ofBytes [111]⟩, true⟩) (exReuse.drop 2) rfl).1 rfl
  exact absurd hclean.2 (by decide +kernel)

end Ebpf101.Tcp.Tcplife
