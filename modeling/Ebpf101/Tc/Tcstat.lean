import Mathlib.Data.List.Basic
import Mathlib.Tactic.Common

/-!
# tcstat and the clsact qdisc

Chapter 18, `18-tc/tcstat.c`: `tcstat` installs a clsact qdisc on an interface, attaches
a program at its ingress and one at its egress, counts until it is stopped, and destroys
the hook. The filters of others are of any type; libbpf's calls do what its documentation
says, and what they return where that depends on the kernel is an input.

Results:
1. `leaves_as_found_iff`: the interface has its qdisc and the filters of others as before
   if and only if it had no clsact qdisc, or the program returned before it asked for one.
   `foreign_filter_removed`: a filter of another program, removed.
2. `kept_until_cleanup`: up to the label `cleanup` nothing is lost, on any path; it is the
   destruction of the hook alone that removes what others attached.
-/

namespace Ebpf101.Tc

/-! ## The calls of libbpf -/

inductive AttachPoint where
  | ingress
  | egress
deriving DecidableEq, Repr

/-- A filter on the qdisc: one of `tcstat`'s or one of another program. -/
inductive Filter (F : Type) where
  | tcstat (point : AttachPoint)
  | other (f : F)
deriving DecidableEq, Repr

/-- The clsact qdisc of the interface with its filters, if there is one. -/
abbrev Clsact (F : Type) := Option (List (Filter F))

def EEXIST : Int := 17

def EINVAL : Int := 22

variable {F : Type}

/-- `bpf_tc_hook_create`. `ret` is what the kernel answers where there is no clsact qdisc. -/
def hookCreate (ret : Int) : Clsact F → Int × Clsact F
  | some filters => (-EEXIST, some filters)
  | none => if ret = 0 then (0, some []) else (ret, none)

/-- `bpf_tc_attach`: without a handle and a priority of its own the filter is a new one.
`ret` is what the kernel answers where there is a clsact qdisc. -/
def attach (ret : Int) (point : AttachPoint) : Clsact F → Int × Clsact F
  | none => (-EINVAL, none)
  | some filters => if ret = 0 then (0, some (filters ++ [.tcstat point])) else (ret, some filters)

/-- `bpf_tc_hook_destroy` on both attach points: the qdisc goes, with what is on it. -/
def hookDestroy (_ : Clsact F) : Clsact F := none

/-! ## main -/

/-- What `main` meets. -/
structure Env where
  -- The name of the command line, if there is one, and the names of the interfaces.
  arg : Option String
  names : List String
  ifNametoindex : String → Except Int Nat
  loads : Bool
  create : Int
  ingress : Int
  egress : Int

/-- `default_iface`. -/
def defaultIface (names : List String) : String := (names.find? (· ≠ "lo")).getD "lo"

def Env.ifname (env : Env) : String := env.arg.getD (defaultIface env.names)

/-- `err`, the lines of `stderr` and the interface at the label `cleanup`. -/
def untilCleanup (env : Env) (q : Clsact F) : Int × List String × Clsact F :=
  let (err, q) := hookCreate env.create q
  if err ≠ 0 ∧ err ≠ -EEXIST then
    (err, ["Failed to create clsact hook on " ++ env.ifname ++ ": " ++ toString err ++ "\n"], q)
  else
    let (err, q) := attach env.ingress .ingress q
    if err ≠ 0 then (err, ["Failed to attach ingress program: " ++ toString err ++ "\n"], q)
    else
      let (err, q) := attach env.egress .egress q
      if err ≠ 0 then (err, ["Failed to attach egress program: " ++ toString err ++ "\n"], q)
      else (0, [], q)

/-- The exit code, the lines of `stderr` and the interface when `main` returns. -/
structure Exit (F : Type) where
  code : Nat
  stderr : List String
  clsact : Clsact F
deriving DecidableEq

/-- `main`. -/
def main (env : Env) (q : Clsact F) : Exit F :=
  match env.ifNametoindex env.ifname with
  | .error errno =>
    ⟨1, ["Unknown interface '" ++ env.ifname ++ "' (" ++ toString errno ++ ")\n"], q⟩
  | .ok _ =>
    if !env.loads then ⟨1, ["Failed to open/load BPF skeleton\n"], q⟩
    else
      let (err, stderr, q) := untilCleanup env q
      ⟨if err ≠ 0 then 1 else 0, stderr, hookDestroy q⟩

/-! ## Statements -/

/-- The interface as others set it up: with a clsact qdisc and filters of theirs, or
without one. -/
def found (initial : Option (List F)) : Clsact F := initial.map fun fs => fs.map .other

/-- The qdisc is there as before, and so is every filter of others. -/
structure LeftAsFound (initial : Option (List F)) (after : Clsact F) : Prop where
  qdisc : after.isSome = initial.isSome
  filters : ∀ fs, initial = some fs → ∀ f ∈ fs, ∃ now, after = some now ∧ .other f ∈ now

/-- `main` returns before it asks for the qdisc. -/
def ReturnsEarly (env : Env) : Prop :=
  (∃ errno, env.ifNametoindex env.ifname = .error errno) ∨ env.loads = false

namespace TcstatLemmas

/-! ## What main does to the interface -/

theorem main_early {env : Env} (h : ReturnsEarly env) (q : Clsact F) : (main env q).clsact = q := by
  unfold main
  rcases h with ⟨errno, hname⟩ | hloads
  · rw [hname]
  · cases env.ifNametoindex env.ifname with
    | error errno => rfl
    | ok ifindex => rw [hloads]; rfl

/-- Whatever the calls return, the way to the end is through the destruction. -/
theorem main_late {env : Env} (h : ¬ ReturnsEarly env) (q : Clsact F) :
    (main env q).clsact = none := by
  obtain ⟨hname, hloads⟩ := not_or.mp h
  unfold main
  cases hidx : env.ifNametoindex env.ifname with
  | error errno => exact absurd ⟨errno, hidx⟩ hname
  | ok ifindex =>
    rw [Bool.not_eq_false] at hloads
    rw [hloads]
    rfl

/-! ## What the calls keep -/

/-- What is on the qdisc stays on it. -/
def Keeps (q q' : Clsact F) : Prop := ∀ fs, q = some fs → ∃ fs', q' = some fs' ∧ ∀ f ∈ fs, f ∈ fs'

theorem Keeps.trans {q q' q'' : Clsact F} (h : Keeps q q') (h' : Keeps q' q'') : Keeps q q'' := by
  intro fs hfs
  obtain ⟨fs', hfs', hsub⟩ := h fs hfs
  obtain ⟨fs'', hfs'', hsub'⟩ := h' fs' hfs'
  exact ⟨fs'', hfs'', fun f hf => hsub' f (hsub f hf)⟩

theorem hookCreate_keeps (ret : Int) (q : Clsact F) : Keeps q (hookCreate ret q).2 := by
  rintro fs rfl
  exact ⟨fs, rfl, fun f hf => hf⟩

theorem attach_keeps (ret : Int) (point : AttachPoint) (q : Clsact F) :
    Keeps q (attach ret point q).2 := by
  rintro fs rfl
  unfold attach
  dsimp only
  split
  · exact ⟨_, rfl, fun f hf => List.mem_append_left _ hf⟩
  · exact ⟨fs, rfl, fun f hf => hf⟩

theorem untilCleanup_keeps (env : Env) (q : Clsact F) : Keeps q (untilCleanup env q).2.2 := by
  have hcreate := hookCreate_keeps env.create q
  have hingress := hcreate.trans (attach_keeps env.ingress .ingress _)
  unfold untilCleanup
  dsimp only
  split
  · exact hcreate
  · split
    · exact hingress
    · split
      · exact hingress.trans (attach_keeps env.egress .egress _)
      · exact hingress.trans (attach_keeps env.egress .egress _)

/-! ## What that means for others -/

theorem leftAsFound_self (initial : Option (List F)) : LeftAsFound initial (found initial) := by
  refine ⟨Option.isSome_map .., ?_⟩
  rintro fs rfl f hf
  exact ⟨fs.map .other, rfl, List.mem_map_of_mem hf⟩

theorem leftAsFound_none_iff {initial : Option (List F)} :
    LeftAsFound initial none ↔ initial = none := by
  constructor
  · intro h
    exact Option.isSome_eq_false_iff.mp h.qdisc.symm |> Option.isNone_iff_eq_none.mp
  · rintro rfl
    exact leftAsFound_self none

end TcstatLemmas

open TcstatLemmas

/-! ## 1. The interface afterwards -/

/-- For every state of the interface and whatever the calls return. -/
theorem leaves_as_found_iff (env : Env) (initial : Option (List F)) :
    LeftAsFound initial (main env (found initial)).clsact ↔ initial = none ∨ ReturnsEarly env := by
  rcases Classical.em (ReturnsEarly env) with hearly | hlate
  · rw [main_early hearly]
    exact iff_of_true (leftAsFound_self initial) (Or.inr hearly)
  · rw [main_late hlate, leftAsFound_none_iff]
    exact (or_iff_left hlate).symm

/-- Nothing fails on an interface that has a clsact qdisc with one filter. -/
def exEnv : Env := ⟨some "eth0", [], fun _ => .ok 2, true, 0, 0, 0⟩

/-- The program ends well, the filter of another program is gone. -/
theorem foreign_filter_removed :
    main exEnv (found (some ["firewall"])) = ⟨0, [], none⟩ ∧
    ¬ LeftAsFound (some ["firewall"]) (main exEnv (found (some ["firewall"]))).clsact := by
  have hexit : main exEnv (found (some ["firewall"])) = ⟨0, [], none⟩ := by decide +kernel
  refine ⟨hexit, fun h => ?_⟩
  rw [hexit] at h
  exact absurd h.qdisc (by decide)

/-! ## 2. Up to the cleanup -/

/-- On every path to the label `cleanup`. -/
theorem kept_until_cleanup (env : Env) {fs : List F} :
    LeftAsFound (some fs) (untilCleanup env (found (some fs))).2.2 := by
  obtain ⟨now, hnow, hsub⟩ := untilCleanup_keeps env (found (some fs)) _ rfl
  rw [hnow]
  refine ⟨rfl, ?_⟩
  rintro fs' hfs f hf
  cases hfs
  exact ⟨now, rfl, hsub _ (List.mem_map_of_mem hf)⟩

end Ebpf101.Tc
