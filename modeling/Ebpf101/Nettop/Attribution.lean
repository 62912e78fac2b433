import Ebpf101.Nettop.Poller

/-!
# nettop: whose retransmits

`tcp_retransmit_skb` runs in softirq, where the current task means nothing. The
hook charges the pid that `sock_owner` holds for the socket's address: `account`
records it from process context, `handle_tcp_close` deletes it, and the LRU map
may drop it at any time. The kernel reuses addresses, so an entry that survived
its socket would charge a stranger.

Results:
1. `retransmit_attributed`: in every run in which an address is reused only after
   `handle_tcp_close` fired for it, and no send or receive hook fires on a closed
   socket, a retransmit adds one to the row of the process that last fired
   `account` on the present socket at the address, or changes nothing. Calls of
   `account` with pid 0 do not count: `pid_zero_not_owner`.
-/

namespace Ebpf101.Nettop.Sockets

open Runs

/-! ## Sockets and their lifetimes -/

/-- The kernel gives the address `sk` to a new socket, or nettop takes a step. -/
inductive SockEvent where
  | socket (sk : SkAddr)
  | run (ev : Nettop.Event)

def step (s : State) : SockEvent → State × List Frame
  | .socket _ => (s, [])
  | .run ev => Nettop.step s ev

/-- The state after a run. Sockets that nettop finds at its start have no
`socket` event. -/
def after (evs : List SockEvent) : State := exec step State.init evs

/-- The pid that a firing of `account` on `sk` charges. Pid 0 and other families
are not charged. -/
def SockEvent.accounts (sk : SkAddr) : SockEvent → Option Pid
  | .run (.fire (.probe p cur s _)) =>
    if s.addr = sk ∧ p.amount.isSome ∧ cur.pid ≠ 0 ∧ (s.family = AF_INET ∨ s.family = AF_INET6) then
      some cur.pid
    else none
  | _ => none

/-- A socket at the address begins. -/
def SockEvent.begins (sk : SkAddr) : SockEvent → Bool
  | .socket a => a = sk
  | .run _ => false

/-- `handle_tcp_close` fires for the address. -/
def SockEvent.closes (sk : SkAddr) : SockEvent → Bool
  | .run (.fire (.close a)) => a = sk
  | _ => false

/-- The event shows that a socket lives at the address. -/
def SockEvent.uses (sk : SkAddr) : SockEvent → Bool
  | .socket a => a = sk
  | .run (.fire (.probe _ _ s _)) => s.addr = sk
  | _ => false

/-- What happened since the present socket at the address began. -/
def lifetime (sk : SkAddr) (evs : List SockEvent) : List SockEvent :=
  evs.foldl (fun life ev => if ev.begins sk then [] else life ++ [ev]) []

/-- The pid that most recently fired `account` on the socket. -/
def lastUser (sk : SkAddr) (life : List SockEvent) : Option Pid :=
  (life.filterMap (SockEvent.accounts sk)).getLast?

/-- `tcp_close` has fired for the socket. -/
def closed (sk : SkAddr) (life : List SockEvent) : Bool := life.any (SockEvent.closes sk)

/-! ## Statements -/

/-- An address goes to a new socket only when the one before it is closed, if
there was one; a closed socket neither sends nor receives. -/
def LivesAt (pre : List SockEvent) : SockEvent → Prop
  | .socket sk => closed sk (lifetime sk pre) = true ∨ ∀ ev ∈ pre, ev.uses sk = false
  | .run (.fire (.probe _ _ s _)) => closed s.addr (lifetime s.addr pre) = false
  | _ => True

/-- A retransmit on `sk` changes nothing, or adds one to the retransmits of the
last user of the present socket, which has its row, and leaves every other field
of every row as it is. -/
def AttributedAt (pre : List SockEvent) : SockEvent → Prop
  | .run (.fire (.retransmit sk)) =>
    (after pre).kernel.fire (.retransmit sk) = (after pre).kernel ∨
    ∃ pid ps, lastUser sk (lifetime sk pre) = some pid ∧
      (∃ ev ∈ lifetime sk pre, ev.accounts sk = some pid) ∧
      (after pre).kernel.procStats.lookupElem pid = some ps ∧
      ((after pre).kernel.fire (.retransmit sk)).sockOwner = (after pre).kernel.sockOwner ∧
      ∀ q, ((after pre).kernel.fire (.retransmit sk)).procStats.lookupElem q =
        if q = pid then some { ps with retransPkts := u64Add ps.retransPkts 1 }
        else (after pre).kernel.procStats.lookupElem q
  | _ => True

instance (pre : List SockEvent) : (ev : SockEvent) → Decidable (LivesAt pre ev)
  | .socket _ => inferInstanceAs (Decidable (_ ∨ ∀ _ ∈ pre, _))
  | .run (.fire (.probe _ _ _ _)) => inferInstanceAs (Decidable (_ = _))
  | .run (.fire (.retransmit _)) | .run (.fire (.close _)) | .run (.fire (.evict _))
  | .run (.pass _ _ _) => isTrue trivial

namespace AttributionLemmas

open PollerLemmas

/-! ## Lifetimes -/

theorem lifetime_snoc (sk : SkAddr) (evs : List SockEvent) (ev : SockEvent) :
    lifetime sk (evs ++ [ev]) = if ev.begins sk then [] else lifetime sk evs ++ [ev] := by
  simp [lifetime]

theorem lifetime_run (sk : SkAddr) (evs : List SockEvent) (ev : Nettop.Event) :
    lifetime sk (evs ++ [.run ev]) = lifetime sk evs ++ [.run ev] := by
  simp [lifetime_snoc, SockEvent.begins]

theorem lastUser_snoc (sk : SkAddr) (life : List SockEvent) (ev : SockEvent) :
    lastUser sk (life ++ [ev]) = (ev.accounts sk).or (lastUser sk life) := by
  unfold lastUser
  rw [List.filterMap_append]
  cases h : ev.accounts sk with
  | none => simp [h]
  | some pid => simp [h]

theorem closed_snoc (sk : SkAddr) (life : List SockEvent) (ev : SockEvent) :
    closed sk (life ++ [ev]) = (closed sk life || ev.closes sk) := by
  simp [closed]

theorem mem_of_lastUser {sk : SkAddr} {life : List SockEvent} {pid : Pid}
    (h : lastUser sk life = some pid) : ∃ ev ∈ life, ev.accounts sk = some pid :=
  List.mem_filterMap.mp (List.mem_of_getLast? h)

theorem mem_of_mem_lifetime {sk : SkAddr} {evs : List SockEvent} {ev : SockEvent}
    (h : ev ∈ lifetime sk evs) : ev ∈ evs := by
  induction evs using List.reverseRecOn with
  | nil => exact h
  | append_singleton evs e ih =>
    rw [lifetime_snoc] at h
    split at h
    · cases h
    · rcases List.mem_append.mp h with h | h
      · exact List.mem_append_left _ (ih h)
      · exact List.mem_append_right _ h

/-- `account` fires on sockets that are in use. -/
theorem uses_of_accounts {sk : SkAddr} {ev : SockEvent} {pid : Pid}
    (h : ev.accounts sk = some pid) : ev.uses sk = true := by
  unfold SockEvent.accounts at h
  split at h
  · split at h
    · next hc => exact decide_eq_true hc.1
    · cases h
  · cases h

/-! ## The owner of a socket -/

/-- What a firing does to the owner that is recorded for an address. -/
theorem owner_fire (k : Kernel) (f : Firing) (sk : SkAddr) :
    (k.fire f).sockOwner.lookupElem sk =
      if SockEvent.closes sk (.run (.fire f)) ∨ f = .evict sk then none
      else (SockEvent.accounts sk (.run (.fire f))).or (k.sockOwner.lookupElem sk) := by
  cases f with
  | probe p cur s env =>
    simp only [Kernel.fire, runProbe_eq, SockEvent.closes, SockEvent.accounts]
    cases p.amount with
    | none => simp
    | some a =>
      simp only [account]
      by_cases hz : cur.pid = 0
      · simp [hz]
      · by_cases hf : s.family ≠ AF_INET ∧ s.family ≠ AF_INET6
        · simp [hz, hf]
        · have hin : s.family = AF_INET ∨ s.family = AF_INET6 := by
            rwa [← not_and_or.trans (or_congr not_not not_not)]
          rw [if_neg hz, if_neg hf, BpfMap.lookupElem_setElem]
          by_cases hs : sk = s.addr
          · simp [hs, hz, hin]
          · simp [hs, Ne.symm hs]
  | retransmit a =>
    simp only [Kernel.fire, handleTcpRetransmit, SockEvent.closes, SockEvent.accounts]
    cases k.sockOwner.lookupElem a <;> simp
  | close a =>
    simp only [Kernel.fire, handleTcpClose, SockEvent.closes, SockEvent.accounts,
      BpfMap.lookupElem_deleteElem]
    by_cases hs : sk = a
    · simp [hs]
    · simp [hs, Ne.symm hs]
  | evict a =>
    simp only [Kernel.fire, SockEvent.closes, SockEvent.accounts, BpfMap.lookupElem_deleteElem]
    by_cases hs : sk = a
    · simp [hs]
    · simp [hs, Ne.symm hs]

/-- A pass leaves the owners alone. -/
theorem sockOwner_pass (s : State) (now : Nat) (alive : Pid → Bool) (el : ℚ) :
    (Nettop.step s (.pass now alive el)).1.kernel.sockOwner = s.kernel.sockOwner := by
  simp only [Nettop.step]
  cases sample (s.env now alive el) s.kernel.procStats s.prev <;> rfl

/-- An owner on record is the last user of a socket that is not closed. -/
def OwnerInv (evs : List SockEvent) (s : State) : Prop :=
  ∀ sk pid, s.kernel.sockOwner.lookupElem sk = some pid →
    closed sk (lifetime sk evs) = false ∧ lastUser sk (lifetime sk evs) = some pid

/-- A firing, given that it is on an open socket. -/
theorem ownerInv_fire {evs : List SockEvent} {s : State} {f : Firing} (h : OwnerInv evs s)
    (hlive : LivesAt evs (.run (.fire f))) :
    OwnerInv (evs ++ [.run (.fire f)]) (step s (.run (.fire f))).1 := by
  intro sk pid hown
  have hstep : (step s (.run (.fire f))).1.kernel = s.kernel.fire f := rfl
  rw [hstep, owner_fire] at hown
  split at hown
  · cases hown
  · next hne =>
    have hopen : SockEvent.closes sk (.run (.fire f)) = false := by
      simpa using fun hc => hne (Or.inl hc)
    rw [lifetime_run, closed_snoc, lastUser_snoc, hopen, Bool.or_false]
    cases hacc : SockEvent.accounts sk (.run (.fire f)) with
    | none =>
      rw [hacc, Option.none_or] at hown
      rw [Option.none_or]
      exact h sk pid hown
    | some p =>
      rw [hacc, Option.some_or] at hown
      rw [Option.some_or]
      refine ⟨?_, hown⟩
      -- only a probe accounts, and it fires on an open socket
      cases f with
      | probe q cur a env =>
        have haddr : a.addr = sk := of_decide_eq_true (uses_of_accounts hacc)
        exact haddr ▸ hlive
      | retransmit a => cases hacc
      | close a => cases hacc
      | evict a => cases hacc

/-- A new socket finds no owner on record for its address. -/
theorem ownerInv_socket {evs : List SockEvent} {s : State} {a : SkAddr} (h : OwnerInv evs s)
    (hlive : LivesAt evs (.socket a)) : OwnerInv (evs ++ [.socket a]) (step s (.socket a)).1 := by
  intro sk pid hown
  obtain ⟨hopen, huser⟩ := h sk pid hown
  by_cases hs : a = sk
  · subst hs
    rcases hlive with hclosed | hfresh
    · rw [hclosed] at hopen
      cases hopen
    · obtain ⟨ev, hev, hacc⟩ := mem_of_lastUser huser
      have huse := uses_of_accounts hacc
      rw [hfresh ev (mem_of_mem_lifetime hev)] at huse
      cases huse
  · have hb : SockEvent.begins sk (.socket a) = false := decide_eq_false hs
    rw [lifetime_snoc, hb, if_neg (by simp), closed_snoc, lastUser_snoc]
    simpa [SockEvent.closes, SockEvent.accounts] using And.intro hopen huser

theorem ownerInv_step {evs : List SockEvent} {s : State} {ev : SockEvent} (h : OwnerInv evs s)
    (hlive : LivesAt evs ev) : OwnerInv (evs ++ [ev]) (step s ev).1 := by
  cases ev with
  | socket a => exact ownerInv_socket h hlive
  | run ev =>
    cases ev with
    | fire f => exact ownerInv_fire h hlive
    | pass now alive el =>
      intro sk pid hown
      have hown' : s.kernel.sockOwner.lookupElem sk = some pid := by
        rwa [← sockOwner_pass s now alive el]
      rw [lifetime_run, closed_snoc, lastUser_snoc]
      simpa [SockEvent.closes, SockEvent.accounts] using h sk pid hown'

theorem ownerInv_after {evs : List SockEvent} (h : Along LivesAt evs) : OwnerInv evs (after evs) :=
  exec_history OwnerInv (fun _ _ hown => by cases hown)
    (fun _ _ _ hlive hinv => ownerInv_step hinv hlive) evs h

/-- What a retransmit does, given whom the map names. -/
theorem attributed_of_owner {evs : List SockEvent} (h : OwnerInv evs (after evs)) (sk : SkAddr) :
    AttributedAt evs (.run (.fire (.retransmit sk))) := by
  simp only [AttributedAt, Kernel.fire, handleTcpRetransmit]
  cases hown : (after evs).kernel.sockOwner.lookupElem sk with
  | none => exact Or.inl rfl
  | some pid =>
    cases hrow : (after evs).kernel.procStats.lookupElem pid with
    | none =>
      refine Or.inl ?_
      simp only
      rw [BpfMap.modify_of_absent hrow]
    | some ps =>
      have huser := (h sk pid hown).2
      refine Or.inr ⟨pid, ps, huser, mem_of_lastUser huser, hrow, rfl, fun q => ?_⟩
      rw [BpfMap.lookupElem_modify]
      by_cases hq : q = pid
      · rw [if_pos hq, if_pos hq, hq, hrow]
        rfl
      · rw [if_neg hq, if_neg hq]

end AttributionLemmas

open AttributionLemmas

/-! ## 1. A retransmit is charged to the socket's own user -/

/-- For every run in which addresses are reused after `handle_tcp_close` only and
closed sockets neither send nor receive, with any evictions and any passes in
between: no retransmit is charged to a process that used an earlier socket at the
address only. -/
theorem retransmit_attributed {evs : List SockEvent} (h : Along LivesAt evs) :
    Along AttributedAt evs := by
  intro pre ev post he
  have hpre : Along LivesAt pre := (he ▸ h : Along LivesAt (pre ++ ev :: post)).left
  cases ev with
  | socket a => trivial
  | run ev =>
    cases ev with
    | pass now alive el => trivial
    | fire f =>
      cases f with
      | retransmit sk => exact attributed_of_owner (ownerInv_after hpre) sk
      | probe p cur s env => trivial
      | close a => trivial
      | evict a => trivial

/-- Pid 7 sends on a socket at address 1 and closes it; the address goes to a
socket of pid 9, which sends and has a segment resent. -/
def exRecycled : List SockEvent :=
  [.socket 1,
   .run (.fire (.probe (.tcpSendmsg 100) ⟨7, Comm.ofBytes [97]⟩ ⟨1, AF_INET⟩ ⟨1, 0, 0⟩)),
   .run (.fire (.close 1)),
   .socket 1,
   .run (.fire (.probe (.tcpSendmsg 50) ⟨9, Comm.ofBytes [98]⟩ ⟨1, AF_INET⟩ ⟨2, 0, 0⟩)),
   .run (.fire (.retransmit 1))]

/-- The retransmit is counted for pid 9, and every retransmit is attributed. -/
theorem exRecycled_attributed :
    ((after exRecycled).kernel.procStats.lookupElem 9).map ProcStats.retransPkts = some 1 ∧
    Along AttributedAt exRecycled :=
  ⟨by decide +kernel, retransmit_attributed (by decide +kernel)⟩

/-- The pid that is current when a hook calls `account` on `sk`. -/
def SockEvent.calls (sk : SkAddr) : SockEvent → Option Pid
  | .run (.fire (.probe p cur s _)) => if s.addr = sk ∧ p.amount.isSome then some cur.pid else none
  | _ => none

/-- Pid 7 sends on a socket; bytes are then taken from its receive queue while the
idle task is current, and a segment is resent. -/
def exIdleRead : List SockEvent :=
  [.socket 1,
   .run (.fire (.probe (.tcpSendmsg 100) ⟨7, Comm.ofBytes [97]⟩ ⟨1, AF_INET⟩ ⟨1, 0, 0⟩)),
   .run (.fire (.probe (.tcpCleanupRbuf 10) ⟨0, Comm.ofBytes [98]⟩ ⟨1, AF_INET⟩ ⟨2, 0, 0⟩)),
   .run (.fire (.retransmit 1))]

/-- The last call of `account` on the socket is of pid 0, and the retransmit is
counted for pid 7. -/
theorem pid_zero_not_owner :
    Along LivesAt exIdleRead ∧
    ((lifetime 1 (exIdleRead.take 3)).filterMap (SockEvent.calls 1)).getLast? = some 0 ∧
    ((after (exIdleRead.take 3)).kernel.procStats.lookupElem 7).map ProcStats.retransPkts = some 0 ∧
    ((after exIdleRead).kernel.procStats.lookupElem 7).map ProcStats.retransPkts = some 1 := by
  decide +kernel

end Ebpf101.Nettop.Sockets
