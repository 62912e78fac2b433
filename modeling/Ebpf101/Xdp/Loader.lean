import Ebpf101.Lib.Numeral
import Ebpf101.Xdp.Firewall

/-!
# The loader of the firewall

Chapter 21, `21-firewall/xdpfw.c`: the command line names an interface and the ports to
block. `main` converts them with `atoi` and a cast to `__u16` into an array of `MAX_RULES`
entries, makes each a key of the map `blocklist`, and attaches `xdp_fw`.

Results:
1. `policy_installed_iff`: when `main` comes to the attach step the keys are the numbers of
   the command line, and `xdp_fw` drops nothing but packets to those, if and only if every
   number is a port and every number behind the 64th argument is also among the first 64.
   `otherPort_blocked`: a number above 65535 that blocks another port, and 65 arguments of
   which the last has no effect.
2. `attach_reached`: no rule is refused for want of room in the map.
-/

namespace Ebpf101.Xdp

open Numeral

/-! ## main, up to the attach step -/

def MAX_RULES : Nat := 64

def E2BIG : Int := 7

/-- What `main` meets: what `atoi` returns where that is undefined, the outcomes of its
calls (an `errno` where one fails), and where the map puts new keys. -/
structure LoaderEnv where
  ub : List Char → Int
  ifNametoindex : String → Except Int Nat
  loads : Bool
  updateFails : Nat → Option Int
  pos : Nat → Nat

/-- The cast `(__u16)`. -/
def toU16 (v : Int) : UInt16 := UInt16.ofNat (v % 2 ^ 16).toNat

/-- The loop over `argv[2..]`. -/
def readPorts (ub : List Char → Int) : List (List Char) → List UInt16 → List UInt16
  | [], ports => ports
  | arg :: args, ports =>
    if ports.length < MAX_RULES then readPorts ub args (ports ++ [toU16 (atoi ub arg)]) else ports

/-- `ports`, when the default has been filled in. -/
def portsOf (ub : List Char → Int) (args : List (List Char)) : List UInt16 :=
  if (readPorts ub args []).length = 0 then [11111] else readPorts ub args []

/-- The loop over `ports`, from the `i`-th on. -/
def installRules (env : LoaderEnv) :
    Nat → List UInt16 → BpfMap UInt16 Nat → Except String (BpfMap UInt16 Nat)
  | _, [], blocklist => .ok blocklist
  | i, port :: ports, blocklist =>
    let failed (errno : Int) : String :=
      "Failed to add rule for port " ++ toString port ++ ": " ++ toString (-errno) ++ "\n"
    match env.updateFails i with
    | some errno => .error (failed errno)
    | none =>
      if (blocklist.lookupElem port).isSome ∨ blocklist.size < MAX_RULES then
        installRules env (i + 1) ports (blocklist.updateElem MAX_RULES (env.pos i) port 0 .any)
      else .error (failed E2BIG)

/-- `main` up to the attach step: the map there, or the text with which it returns 1. -/
def untilAttach (env : LoaderEnv) (ifname : Option String) (args : List (List Char)) :
    Except String (BpfMap UInt16 Nat) :=
  let ifname := ifname.getD "lo"
  match env.ifNametoindex ifname with
  | .error errno => .error ("Unknown interface '" ++ ifname ++ "' (" ++ toString errno ++ ")\n")
  | .ok _ =>
    let ports := portsOf env.ub args
    if !env.loads then .error "Failed to open/load BPF skeleton\n"
    else installRules env 0 ports BpfMap.empty

/-! ## The policy asked for -/

/-- A decimal argument: a sign, if any, and digits. -/
structure DecimalArg where
  sign : Sign
  digits : List Char
  digits_ne : digits ≠ []
  all_digits : ∀ c ∈ digits, isDigit 10 c = true

def DecimalArg.text (arg : DecimalArg) : List Char := arg.sign.text ++ arg.digits

def DecimalArg.number (arg : DecimalArg) : Int := arg.sign.number (value 10 arg.digits)

/-- The numbers that the operator names. -/
def requested (args : List DecimalArg) : List Int :=
  if args = [] then [11111] else args.map DecimalArg.number

/-- The keys are the numbers, and a packet is dropped only for one of them, after any runs
of `xdp_fw` on any CPUs. -/
structure PolicyInstalled (numbers : List Int) (blocklist : BpfMap UInt16 Nat) : Prop where
  keys : ∀ v : Int, (∃ p ∈ blocklist.keys, (p.toNat : Int) = v) ↔ v ∈ numbers
  drops : ∀ (n : Nat) (frames : Fin n → List UInt8) (sched : List (Fin n)) (frame : List UInt8),
    (xdpFw (fwAfter blocklist frames sched).shared frame).2 = .drop →
      ∃ p, fwPort frame = some p ∧ (p.toNat : Int) ∈ numbers

def DecimalArg.IsPort (arg : DecimalArg) : Prop := 0 ≤ arg.number ∧ arg.number < 2 ^ 16

namespace LoaderLemmas

open FirewallLemmas

/-! ## Arguments -/

/-- The array takes the first arguments there is room for. -/
theorem readPorts_eq (ub : List Char → Int) (args : List (List Char)) :
    ∀ ports : List UInt16, readPorts ub args ports =
      ports ++ (args.take (MAX_RULES - ports.length)).map fun arg => toU16 (atoi ub arg) := by
  induction args with
  | nil => simp [readPorts]
  | cons arg args ih =>
    intro ports
    rw [readPorts]
    split
    · next hroom =>
      rw [ih, List.length_append, List.length_singleton, List.append_assoc, ← Nat.sub_sub,
        ← Nat.succ_pred_eq_of_pos (Nat.sub_pos_of_lt hroom)]
      rfl
    · next hfull => rw [Nat.sub_eq_zero_of_le (Nat.not_lt.mp hfull), List.take_zero, List.map_nil,
        List.append_nil]

theorem portsOf_nil (ub : List Char → Int) : portsOf ub [] = [11111] := rfl

theorem portsOf_of_ne {ub : List Char → Int} {args : List (List Char)} (hne : args ≠ []) :
    portsOf ub args = (args.take MAX_RULES).map fun arg => toU16 (atoi ub arg) := by
  have hread : readPorts ub args [] = (args.take MAX_RULES).map fun arg => toU16 (atoi ub arg) :=
    readPorts_eq ub args []
  obtain ⟨arg, args, rfl⟩ := List.exists_cons_of_ne_nil hne
  rw [portsOf, hread]
  exact if_neg (by simp [MAX_RULES])

theorem portsOf_length (ub : List Char → Int) (args : List (List Char)) :
    (portsOf ub args).length ≤ MAX_RULES := by
  rcases eq_or_ne args [] with rfl | hne
  · rw [portsOf_nil]
    decide
  · rw [portsOf_of_ne hne, List.length_map]
    exact List.length_take_le _ _

/-- A port is converted to itself. -/
theorem toU16_atoi (ub : List Char → Int) {arg : DecimalArg} (h : arg.IsPort) :
    ((toU16 (atoi ub arg.text)).toNat : Int) = arg.number := by
  have hwritten : Written arg.text [] arg.sign arg.digits :=
    ⟨rfl, fun c hc => absurd hc List.not_mem_nil⟩
  have hatoi : atoi ub arg.text = arg.number :=
    atoi_written ub hwritten arg.digits_ne arg.all_digits (Int.le_trans (by decide) h.1)
      (Int.lt_trans h.2 (by decide))
  obtain ⟨n, hn⟩ := Int.eq_ofNat_of_zero_le h.1
  have hlt : n < 2 ^ 16 := by
    have hhi := h.2
    rw [hn] at hhi
    exact_mod_cast hhi
  rw [hatoi, hn, toU16, Int.emod_eq_of_lt (Int.natCast_nonneg n) (by exact_mod_cast hlt),
    Int.toNat_natCast, UInt16.toNat_ofNat_of_lt' hlt]

/-! ## Rules -/

/-- The loop adds its ports to the keys. -/
theorem installRules_keys {env : LoaderEnv} {ports : List UInt16} :
    ∀ {i : Nat} {m m' : BpfMap UInt16 Nat}, installRules env i ports m = .ok m' →
      ∀ p, p ∈ m'.keys ↔ p ∈ ports ∨ p ∈ m.keys := by
  induction ports with
  | nil =>
    intro i m m' h p
    cases h
    simp
  | cons port ports ih =>
    intro i m m' h p
    rw [installRules] at h
    cases hf : env.updateFails i with
    | some errno => rw [hf] at h; cases h
    | none =>
      rw [hf] at h
      dsimp only at h
      split at h
      · next hroom =>
        rw [ih h, BpfMap.mem_keys_any hroom, List.mem_cons]
        tauto
      · cases h

/-- The loop does not run out of room. -/
theorem installRules_ok {env : LoaderEnv} (hupdates : ∀ i, env.updateFails i = none)
    {ports : List UInt16} :
    ∀ {i : Nat} {m : BpfMap UInt16 Nat}, m.size + ports.length ≤ MAX_RULES →
      ∃ m', installRules env i ports m = .ok m' := by
  induction ports with
  | nil => exact fun _ => ⟨_, rfl⟩
  | cons port ports ih =>
    intro i m h
    rw [List.length_cons] at h
    have hsize := BpfMap.size_updateElem_any_le MAX_RULES m (env.pos i) port 0
    rw [installRules, hupdates i]
    dsimp only
    rw [if_pos (Or.inr (by omega))]
    exact ih (by omega)

/-- At the attach step the keys are the ports of the array. -/
theorem untilAttach_keys {env : LoaderEnv} {ifname : Option String} {args : List (List Char)}
    {m : BpfMap UInt16 Nat} (h : untilAttach env ifname args = .ok m) (p : UInt16) :
    p ∈ m.keys ↔ p ∈ portsOf env.ub args := by
  unfold untilAttach at h
  dsimp only at h
  split at h
  · cases h
  · split at h
    · cases h
    · rw [installRules_keys h]
      exact or_iff_left List.not_mem_nil

/-! ## The policy -/

/-- The second half of the policy follows from the first. -/
theorem policyInstalled_iff_keys {numbers : List Int} {blocklist : BpfMap UInt16 Nat} :
    PolicyInstalled numbers blocklist ↔
      ∀ v : Int, (∃ p ∈ blocklist.keys, (p.toNat : Int) = v) ↔ v ∈ numbers := by
  refine ⟨PolicyInstalled.keys, fun h => ⟨h, fun n frames sched frame hdrop => ?_⟩⟩
  obtain ⟨p, hp, hkey⟩ := drop_iff.mp hdrop
  rw [keys_after] at hkey
  exact ⟨p, hp, (h _).mp ⟨p, hkey, rfl⟩⟩

theorem isPort_of_key {arg : DecimalArg} {p : UInt16} (h : (p.toNat : Int) = arg.number) :
    arg.IsPort := by
  have hlt := p.toNat_lt
  rw [DecimalArg.IsPort, ← h]
  exact ⟨Int.natCast_nonneg _, by exact_mod_cast hlt⟩

/-- The keys, argument by argument. -/
theorem mem_portsOf_iff {ub : List Char → Int} {args : List DecimalArg} (hne : args ≠ [])
    {p : UInt16} :
    p ∈ portsOf ub (args.map DecimalArg.text) ↔
      ∃ arg ∈ args.take MAX_RULES, toU16 (atoi ub arg.text) = p := by
  rw [portsOf_of_ne (by simpa using hne), ← List.map_take, List.map_map, List.mem_map]
  rfl

theorem not_policyInstalled {numbers : List Int} {blocklist : BpfMap UInt16 Nat} {v : Int}
    (hv : v ∈ numbers)
    (hkeys : ∀ p ∈ blocklist.keys, (p.toNat : Int) ≠ v) : ¬ PolicyInstalled numbers blocklist := by
  intro h
  obtain ⟨p, hp, hpv⟩ := (h.keys v).mpr hv
  exact hkeys p hp hpv

theorem of_keys_eq {r : Except String (BpfMap UInt16 Nat)} {ks : List UInt16}
    (h : r.toOption.map BpfMap.keys = some ks) : ∃ m, r = .ok m ∧ m.keys = ks := by
  cases r with
  | error e => cases h
  | ok m => exact ⟨m, rfl, Option.some.inj h⟩

end LoaderLemmas

open LoaderLemmas

/-! ## 1. The policy -/

/-- For every command line of decimal arguments with which `main` comes to the attach step. -/
theorem policy_installed_iff {env : LoaderEnv} {ifname : String} {args : List DecimalArg}
    {blocklist : BpfMap UInt16 Nat}
    (h : untilAttach env (some ifname) (args.map DecimalArg.text) = .ok blocklist) :
    PolicyInstalled (requested args) blocklist ↔
      (∀ arg ∈ args, arg.IsPort) ∧
        ∀ arg ∈ args.drop MAX_RULES, ∃ arg' ∈ args.take MAX_RULES, arg'.number = arg.number := by
  rw [policyInstalled_iff_keys]
  simp only [untilAttach_keys h]
  rcases eq_or_ne args [] with rfl | hne
  · refine iff_of_true (fun v => ?_) ⟨by simp, by simp⟩
    simp [portsOf_nil, requested, eq_comm]
  · simp only [mem_portsOf_iff hne, requested, if_neg hne, List.mem_map]
    constructor
    · intro hkeys
      have hports : ∀ arg ∈ args, arg.IsPort := by
        intro arg harg
        obtain ⟨p, -, hp⟩ := (hkeys arg.number).mpr ⟨arg, harg, rfl⟩
        exact isPort_of_key hp
      refine ⟨hports, fun arg harg => ?_⟩
      obtain ⟨p, ⟨arg', harg', rfl⟩, hp⟩ :=
        (hkeys arg.number).mpr ⟨arg, List.mem_of_mem_drop harg, rfl⟩
      rw [toU16_atoi env.ub (hports arg' (List.mem_of_mem_take harg'))] at hp
      exact ⟨arg', harg', hp⟩
    · rintro ⟨hports, hrest⟩ v
      constructor
      · rintro ⟨p, ⟨arg, harg, rfl⟩, rfl⟩
        have hmem := List.mem_of_mem_take harg
        exact ⟨arg, hmem, (toU16_atoi env.ub (hports arg hmem)).symm⟩
      · rintro ⟨arg, harg, rfl⟩
        obtain ⟨arg', harg', hnumber⟩ : ∃ arg' ∈ args.take MAX_RULES, arg'.number = arg.number := by
          rw [← List.take_append_drop MAX_RULES args, List.mem_append] at harg
          rcases harg with hfirst | hlast
          · exact ⟨arg, hfirst, rfl⟩
          · exact hrest arg hlast
        refine ⟨_, ⟨arg', harg', rfl⟩, ?_⟩
        rw [toU16_atoi env.ub (hports arg' (List.mem_of_mem_take harg')), hnumber]

/-- No call fails, and `atoi` returns 0 where its result is undefined. -/
def exLoaderEnv : LoaderEnv := ⟨fun _ => 0, fun _ => .ok 1, true, fun _ => none, fun _ => 0⟩

def exHttps : DecimalArg := ⟨.absent, "443".toList, by decide, List.all_eq_true.mp (by decide)⟩

theorem exHttps_installed :
    ∃ blocklist, untilAttach exLoaderEnv (some "lo") ([exHttps].map DecimalArg.text) =
      .ok blocklist ∧
      PolicyInstalled [443] blocklist := by
  have hrun : (untilAttach exLoaderEnv (some "lo") ([exHttps].map DecimalArg.text)).toOption.map
      BpfMap.keys =
      some [443] := by decide +kernel
  obtain ⟨blocklist, hok, -⟩ := of_keys_eq hrun
  refine ⟨blocklist, hok, (policy_installed_iff hok).mpr ⟨fun arg harg => ?_, fun arg harg => ?_⟩⟩
  · rw [List.mem_singleton.mp harg, DecimalArg.IsPort]
    decide
  · exact absurd harg List.not_mem_nil

def exWide : DecimalArg := ⟨.absent, "65579".toList, by decide, List.all_eq_true.mp (by decide)⟩

/-- Port 443, sixty-four times, and a port that is named once. -/
def exMany : List DecimalArg :=
  List.replicate 64 exHttps ++ [⟨.absent, "80".toList, by decide, List.all_eq_true.mp (by decide)⟩]

/-- 65579 blocks port 43; of 65 arguments the last one blocks nothing. -/
theorem otherPort_blocked :
    (∃ blocklist, untilAttach exLoaderEnv (some "lo") ([exWide].map DecimalArg.text) =
      .ok blocklist ∧
      blocklist.keys = [43] ∧ ¬ PolicyInstalled (requested [exWide]) blocklist) ∧
    ∃ blocklist, untilAttach exLoaderEnv (some "lo") (exMany.map DecimalArg.text) = .ok blocklist ∧
      blocklist.keys = [443] ∧ ¬ PolicyInstalled (requested exMany) blocklist := by
  constructor
  · have hrun : (untilAttach exLoaderEnv (some "lo") ([exWide].map DecimalArg.text)).toOption.map
        BpfMap.keys =
        some [43] := by decide +kernel
    obtain ⟨blocklist, hok, hkeys⟩ := of_keys_eq hrun
    have hnumber : (65579 : Int) ∈ requested [exWide] := by decide +kernel
    refine ⟨blocklist, hok, hkeys, not_policyInstalled hnumber fun p hp => ?_⟩
    rw [hkeys, List.mem_singleton] at hp
    rw [hp]
    decide
  · have hrun : (untilAttach exLoaderEnv (some "lo") (exMany.map DecimalArg.text)).toOption.map
        BpfMap.keys =
        some [443] := by decide +kernel
    obtain ⟨blocklist, hok, hkeys⟩ := of_keys_eq hrun
    have hnumber : (80 : Int) ∈ requested exMany := by decide +kernel
    refine ⟨blocklist, hok, hkeys, not_policyInstalled hnumber fun p hp => ?_⟩
    rw [hkeys, List.mem_singleton] at hp
    rw [hp]
    decide

/-! ## 2. The attach step -/

/-- Whatever the arguments are: an array of ports always fits into the map. -/
theorem attach_reached {env : LoaderEnv} {ifname : Option String} {ifindex : Nat}
    (hname : env.ifNametoindex (ifname.getD "lo") = .ok ifindex) (hloads : env.loads = true)
    (hupdates : ∀ i, env.updateFails i = none) (args : List (List Char)) :
    ∃ blocklist, untilAttach env ifname args = .ok blocklist := by
  have hroom : (BpfMap.empty : BpfMap UInt16 Nat).size + (portsOf env.ub args).length ≤
      MAX_RULES := by
    rw [show (BpfMap.empty : BpfMap UInt16 Nat).size = 0 from rfl, Nat.zero_add]
    exact portsOf_length env.ub args
  obtain ⟨blocklist, hok⟩ := installRules_ok hupdates hroom
  refine ⟨blocklist, ?_⟩
  unfold untilAttach
  dsimp only
  rw [hname, hloads]
  exact hok

end Ebpf101.Xdp
