import Jos.Kernel.Mpconfig
import Mathlib.Data.List.Basic

-- When the processors that `mp_init` counts include the one it marks as started.

open Function Bytes

namespace Jos.Mpconfig

variable {npages : Nat} {m : Mem} {n b : Nat} {p mp conf : Word} {k : Mp} {flag : Bool}

-- What the entries of a configuration table are.
inductive Entry
  | mpproc (boot : Bool)
  | other
  | unknown
  deriving DecidableEq

variable {es : List Entry} {e : Entry}

-- The table ends with the first entry of an unknown type.
def table (m : Mem) : Nat → Word → List Entry
  | 0, _ => []
  | n + 1, p =>
    if m p = 0x00#8 then
      .mpproc (m (p + 3#32) &&& 0x02#8 ≠ 0#8) :: table m n (p + 20#32)
    else if m p = 0x01#8 ∨ m p = 0x02#8 ∨ m p = 0x03#8 ∨ m p = 0x04#8 then
      .other :: table m n (p + 8#32)
    else
      [.unknown]

def tableAt (m : Mem) (conf : Word) : List Entry :=
  table m (load16 m (conf + 34#32)).toNat (conf + 44#32)

def Entry.boot : Entry → Option Bool
  | .mpproc boot => some boot
  | .other => none
  | .unknown => none

-- Which of the processors are flagged as bootstrap processor.
def bootFlags (es : List Entry) : List Bool :=
  es.filterMap Entry.boot

def Mp.add (k : Mp) : Entry → Mp
  | .mpproc boot => k.mpproc boot
  | .other => k
  | .unknown => { k with ismp := false }

theorem entries_eq : entries m n p k = (table m n p).foldl Mp.add k := by
  induction n generalizing p k
  case zero => rfl
  case succ n hi =>
    rw [entries, table]
    split
    case isTrue => exact hi
    case isFalse =>
    split
    case isTrue => exact hi
    case isFalse => rfl

-- The state after the entries `es`.
structure Counted (k : Mp) (es : List Entry) : Prop where
  ncpu  : k.ncpu = min (bootFlags es).length 8
  cpuId : ∀ i < max k.ncpu 1, (k.cpus i).cpuId = BitVec.ofNat 8 i
  boot  : ∀ b, 0 < b → b ≤ 8 → (k.bootcpu < b ↔ true ∉ (bootFlags es).drop b)
  ismp  : k.ismp = true ↔ .unknown ∉ es

theorem bootFlags_concat : bootFlags (es ++ [e]) = bootFlags es ++ e.boot.toList := by
  rw [bootFlags, List.filterMap_append]
  cases e <;> rfl

namespace Counted

theorem boot_of_length_le (h : Counted k es) (h₀ : 0 < b) (h₈ : b ≤ 8) (hb : (bootFlags es).length ≤ b) : k.bootcpu < b := by
  rw [h.boot b h₀ h₈, List.drop_of_length_le hb]
  exact List.not_mem_nil

-- Of a flagged processor the index counts, as far as it is one of `cpus`.
theorem boot_mpproc (h : Counted k es) (h₀ : 0 < b) (h₈ : b ≤ 8) :
    (if flag then k.ncpu else k.bootcpu) < b ↔ true ∉ (bootFlags es ++ [flag]).drop b := by
  rw [List.drop_append, List.mem_append, not_or, ← h.boot b h₀ h₈, h.ncpu]
  by_cases hb : (bootFlags es).length < b
  case pos =>
    have hlt := h.boot_of_length_le h₀ h₈ (Nat.le_of_lt hb)
    rw [List.drop_of_length_le (l := [flag]) (by simp; omega)]
    cases flag
    case false => simp
    case true => simp [hlt, hb]
  case neg =>
    have hz : b - (bootFlags es).length = 0 := by omega
    rw [hz, List.drop_zero]
    cases flag
    case false => simp
    case true =>
      simp only [if_true, List.mem_singleton, not_true, and_false, iff_false]
      omega

theorem mpproc (h : Counted k es) : Counted (k.mpproc flag) (es ++ [.mpproc flag]) := by
  have hb : bootFlags (es ++ [.mpproc flag]) = bootFlags es ++ [flag] := bootFlags_concat
  have hn := h.ncpu
  have hk : (if flag then { k with bootcpu := k.ncpu } else k) =
      { k with bootcpu := if flag then k.ncpu else k.bootcpu } := by
    cases flag <;> rfl
  have hu : .unknown ∉ es ++ [.mpproc flag] ↔ .unknown ∉ es := by simp
  rw [Mp.mpproc, hk]
  dsimp only
  split
  case isTrue hlt =>
    have hlt : k.ncpu < 8 := hlt
    constructor
    case ncpu =>
      rw [hb, List.length_append, List.length_singleton]
      change k.ncpu + 1 = _
      omega
    case cpuId =>
      intro i hi
      change (update k.cpus k.ncpu _ i).cpuId = _
      by_cases he : i = k.ncpu
      case pos =>
        subst he
        rw [update_self]
      case neg =>
        rw [update_of_ne he]
        change i < max (k.ncpu + 1) 1 at hi
        exact h.cpuId i (by omega)
    case boot =>
      intro b h₀ h₈
      rw [hb]
      exact h.boot_mpproc h₀ h₈
    case ismp => exact h.ismp.trans hu.symm
  case isFalse hlt =>
    have hlt : ¬k.ncpu < 8 := hlt
    constructor
    case ncpu =>
      rw [hb, List.length_append, List.length_singleton]
      change k.ncpu = _
      omega
    case cpuId => exact h.cpuId
    case boot =>
      intro b h₀ h₈
      rw [hb]
      exact h.boot_mpproc h₀ h₈
    case ismp => exact h.ismp.trans hu.symm

theorem add (h : Counted k es) : Counted (k.add e) (es ++ [e]) := by
  cases e
  case mpproc => exact h.mpproc
  case other =>
    have hb : bootFlags (es ++ [.other]) = bootFlags es := bootFlags_concat.trans <| List.append_nil _
    exact ⟨hb ▸ h.ncpu, h.cpuId, hb ▸ h.boot, h.ismp.trans (by simp)⟩
  case unknown =>
    have hb : bootFlags (es ++ [.unknown]) = bootFlags es := bootFlags_concat.trans <| List.append_nil _
    exact ⟨hb ▸ h.ncpu, h.cpuId, hb ▸ h.boot, by simp [Mp.add]⟩

theorem foldl {es' : List Entry} (h : Counted k es) : Counted (es'.foldl Mp.add k) (es ++ es') := by
  induction es' generalizing k es
  case nil => rwa [List.append_nil]
  case cons e es' hi =>
    rw [List.append_cons]
    exact hi h.add

end Counted

-- The processors that are counted have their index as id, and the one which is marked as started is among them.
structure Mp.Consistent (k : Mp) : Prop where
  ncpu    : k.ncpu ≤ Jos.ncpu
  cpuId   : ∀ i < k.ncpu, (k.cpus i).cpuId = BitVec.ofNat 8 i
  boot    : k.bootcpu < max k.ncpu 1
  started : (k.cpus k.bootcpu).status = .started

-- The state before the entries are read.
def Mp.found (lapicaddr : Word) : Mp :=
  { cpus := fun _ => {}, ismp := true, lapicaddr }

theorem counted_found {lapicaddr : Word} : Counted (Mp.found lapicaddr) [] where
  ncpu      := rfl
  cpuId i h := by
    have h : i < 1 := h
    obtain rfl : i = 0 := by omega
    rfl
  boot b h₀ _ := by simpa [Mp.found, bootFlags] using h₀
  ismp        := by simp [Mp.found]

-- What `mp_init` does after the entries.
def Mp.finish (m : Mem) (mp : Word) (k : Mp) : Mp :=
  if !k.ismp then { k with ncpu := 1, lapicaddr := 0#32 } else { k with imcr := m (mp + 12#32) ≠ 0#8 }

theorem mpInit_eq (h : mpconfig npages m = .ok (some (mp, conf))) :
    mpInit npages m = Mp.finish m mp <$> ((tableAt m conf).foldl Mp.add (Mp.found (load m (conf + 36#32)))).start := by
  rw [mpInit, h, tableAt, ← entries_eq]
  change Except.bind (entries m _ _ (Mp.found (load m (conf + 36#32)))).start _ = Except.map _ (Mp.start _)
  cases (entries m _ _ (Mp.found (load m (conf + 36#32)))).start
  case error => rfl
  case ok k =>
    simp only [Except.bind, Except.map, Mp.finish]
    split <;> rfl

-- The number of processors among which the one that is started has to be.
def limit (es : List Entry) : Nat :=
  if .unknown ∈ es then 1 else Jos.ncpu

def Mp.mark (k : Mp) : Mp :=
  { k with cpus := update k.cpus k.bootcpu { k.cpus k.bootcpu with status := .started } }

theorem mark_cpuId {i : Nat} : (k.mark.cpus i).cpuId = (k.cpus i).cpuId := by
  change (update k.cpus k.bootcpu _ i).cpuId = _
  by_cases he : i = k.bootcpu
  case pos =>
    subst he
    rw [update_self]
  case neg => rw [update_of_ne he]

theorem mark_started : (k.mark.cpus k.bootcpu).status = .started := by
  change (update k.cpus k.bootcpu _ k.bootcpu).status = _
  rw [update_self]

namespace Counted

theorem boot_limit (h : Counted k es) : k.bootcpu < limit es ↔ true ∉ (bootFlags es).drop (limit es) := by
  apply h.boot
  all_goals
    rw [limit]
    split <;> decide

-- A processor which is one of `cpus` is one of those that are counted.
theorem boot_ncpu (h : Counted k es) (hlt : k.bootcpu < 8) : k.bootcpu < max k.ncpu 1 := by
  have hn := h.ncpu
  by_cases hl : (bootFlags es).length ≤ 8
  case pos =>
    apply h.boot_of_length_le
    all_goals omega
  case neg => omega

theorem consistent_iff (h : Counted k es) :
    (∃ k', Mp.finish m mp <$> k.start = .ok k' ∧ k'.Consistent) ↔ true ∉ (bootFlags es).drop (limit es) := by
  rw [← h.boot_limit, limit]
  by_cases hlt : k.bootcpu < Jos.ncpu
  case neg =>
    have hs : k.start = .error .cpus := if_neg hlt
    rw [hs]
    constructor
    case mp =>
      intro ⟨k', hk, _⟩
      cases hk
    case mpr =>
      intro hl
      exact absurd (Nat.lt_of_lt_of_le hl <| by split <;> decide) hlt
  case pos =>
    have hs : k.start = .ok k.mark := if_pos hlt
    have hn : k.ncpu ≤ Jos.ncpu := h.ncpu ▸ Nat.min_le_right _ _
    rw [hs]
    change (∃ k', Except.ok (Mp.finish m mp k.mark) = .ok k' ∧ k'.Consistent) ↔ _
    have hm : k.mark.ismp = k.ismp := rfl
    rw [Mp.finish, hm]
    cases hi : k.ismp
    case true =>
      rw [if_neg (h.ismp.mp hi)]
      refine iff_of_true ⟨_, rfl, hn, fun i hi => ?_, h.boot_ncpu hlt, mark_started⟩ hlt
      exact mark_cpuId.trans <| h.cpuId i <| Nat.lt_of_lt_of_le hi (Nat.le_max_left _ _)
    case false =>
      have hu : .unknown ∈ es := by
        by_contra hn
        rw [h.ismp.mpr hn] at hi
        cases hi
      rw [if_pos hu]
      constructor
      case mp =>
        intro ⟨k', hk, hc⟩
        cases hk
        exact hc.boot
      case mpr =>
        intro hb
        refine ⟨_, rfl, (by decide : 1 ≤ Jos.ncpu), fun i hi => ?_, hb, mark_started⟩
        exact mark_cpuId.trans <| h.cpuId i <| Nat.lt_of_lt_of_le hi (Nat.le_max_right _ _)

end Counted

-- The processor which is marked as started is one of those counted if and only if no bootstrap processor follows those
-- that `cpus` has room for, or the first one if the kernel falls back to a single processor.
theorem mp_init_consistent_iff (npages : Nat) (m : Mem) (mp conf : Word) (h : mpconfig npages m = .ok (some (mp, conf))) :
    (∃ k, mpInit npages m = .ok k ∧ k.Consistent) ↔
      true ∉ (bootFlags (tableAt m conf)).drop (limit (tableAt m conf)) := by
  rw [mpInit_eq h]
  exact counted_found.foldl.consistent_iff

section Firmware

-- An entry for an enabled processor.
def processorEntry (id : Nat) (boot : Bool) : List Byte :=
  [0x00#8, BitVec.ofNat 8 id, 0x14#8, if boot then 0x03#8 else 0x01#8] ++ List.replicate 16 0#8

-- A configuration table for `n` processors, the last one of which is the bootstrap processor.
def configuration (n : Nat) (checksum : Byte) : List Byte :=
  bytes "PCMP" ++ [BitVec.ofNat 8 (44 + 20 * n), 0x00#8, 0x04#8, checksum] ++ List.replicate 26 0#8 ++
    [BitVec.ofNat 8 n, 0x00#8] ++ List.replicate 8 0#8 ++ (List.range n).flatMap fun i => processorEntry i (i + 1 = n)

-- A memory with the floating pointer structure at the start of the EBDA.
def firmware (conf : List Byte) : Mem := fun a =>
  if a = 0xF000040F#32 then
    0x01#8
  else if a - 0xF0001000#32 < 16#32 then
    (bytes "_MP_" ++ [0x00#8, 0x20#8, 0x00#8, 0x00#8, 0x01#8, 0x04#8, 0x80#8]).getD (a - 0xF0001000#32).toNat 0#8
  else if a - 0xF0002000#32 < 0x1000#32 then
    conf.getD (a - 0xF0002000#32).toNat 0#8
  else
    0#8

theorem mp_init_consistent_iff_two :
    (∃ k, mpInit 0x4000 (firmware (configuration 2 0x49#8)) = .ok k ∧ k.Consistent) ↔
      true ∉ (bootFlags (tableAt (firmware (configuration 2 0x49#8)) 0xF0002000#32)).drop
        (limit (tableAt (firmware (configuration 2 0x49#8)) 0xF0002000#32)) :=
  mp_init_consistent_iff 0x4000 (firmware (configuration 2 0x49#8)) 0xF0001000#32 0xF0002000#32 (by decide +kernel)

-- The ninth processor is the bootstrap processor.
theorem mp_init_overruns :
    mpconfig 0x4000 (firmware (configuration 9 0x00#8)) = .ok (some (0xF0001000#32, 0xF0002000#32)) ∧
      mpInit 0x4000 (firmware (configuration 9 0x00#8)) = .error .cpus := by
  have hc : mpconfig 0x4000 (firmware (configuration 9 0x00#8)) = .ok (some (0xF0001000#32, 0xF0002000#32)) := by
    decide +kernel
  have ht : tableAt (firmware (configuration 9 0x00#8)) 0xF0002000#32 =
      List.replicate 8 (.mpproc false) ++ [.mpproc true] := by
    decide +kernel
  refine ⟨hc, ?_⟩
  rw [mpInit_eq hc, ht]
  rfl

end Firmware

end Jos.Mpconfig
