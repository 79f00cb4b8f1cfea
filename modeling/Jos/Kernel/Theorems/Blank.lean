import Jos.Kernel.Theorems.Pages

-- States without any environment, whose page tables are empty.

open Function RefCount Program

namespace Jos

open Kernel

variable {M : Set Ppn} {l : List Ppn} {L : List EnvIx} {s : Kernel} {p : Ppn}

section Blank

variable (hm : ∀ i, s.mem s.kernPgdir i = 0#32) (he : ∀ e, (s.envs e).status = .free)

include hm he in
theorem target_blank : s.target = fun _ => none := by
  funext r
  cases r
  case kpde i => simp [target, table, hm]
  all_goals simp [target, pteOf, tableOf, pgdirOf, he]

include hm he in
theorem PageInv.blank (hl : s.FreeList l) (hn : l.Nodup) (hM : ∀ p, p ∈ l ↔ p ∈ M)
    (hr : ∀ p ∈ M, (s.pages p).ref = 0#16) (hb : ∀ p ∈ M, p.toNat < s.npages) (hk : s.kernPgdir ∉ M)
    (hd : ∀ e, (s.envs e).pgdir = none) : PageInv M ∅ l s := by
  have ht := target_blank hm he
  have hz : ∀ p, RefCount.refs s.target p = 0 := fun p => refs_eq_zero_iff.mpr (by simp [ht])
  refine ⟨hl, ⟨hn, fun {p} => by simp [hz p, hM p], fun hp => by simp [hr _ hp, hz], by simp⟩, ?_, hb _,
    by simp [ht], by simp [ht], hk, fun _ => by simp [ht], fun {e} => by simp [he, hd]⟩
  intro p hp hn
  exact absurd ((hM p).mpr hp) hn

include hm he in
theorem MemInv.blank (hl : s.FreeList l) (hn : l.Nodup) (hb : ∀ p ∈ l, p.toNat < s.npages)
    (hr : ∀ p ∈ l, (s.pages p).ref = 0#16) (hk : s.kernPgdir ∉ l) (hd : ∀ e, (s.envs e).pgdir = none)
    (hL : EnvInv L s) : MemInv { p | p ∈ l } s :=
  ⟨l, L, PageInv.blank hm he hl hn (fun _ => Iff.rfl) hr hb hk hd, hL⟩

end Blank

-- A machine with `n` free pages and no environment.
def freshKernel (n : Nat) : Kernel :=
  { powerOn with
    npages := n + 1
    pages := fun p => { link := if p.toNat < n then some (p + 1#20) else none, ref := 0#16 }
    pageFreeList := if n = 0 then none else some 1#20
    envs := fun e => { link := if h : e.val + 1 < 1024 then some ⟨e.val + 1, h⟩ else none }
    envFreeList := some 0 }

def freshPages (n : Nat) : List Ppn :=
  (List.range' 1 n).map (BitVec.ofNat 20)

theorem mem_freshPages {n : Nat} (hn : n < 2 ^ 20) (hp : p ∈ freshPages n) : p ≠ 0#20 ∧ p.toNat < n + 1 := by
  obtain ⟨i, hi, rfl⟩ := List.mem_map.mp hp
  have hi := List.mem_range'_1.mp hi
  have ht : (BitVec.ofNat 20 i).toNat = i := by rw [BitVec.toNat_ofNat]; omega
  refine ⟨fun he => ?_, by omega⟩
  rw [he] at ht
  simp only [BitVec.toNat_ofNat, Nat.zero_mod] at ht
  omega

theorem freshKernel_chain {n k m : Nat} (hk : k + m = n + 1) (hn : n < 2 ^ 20) :
    Linked.Chain (fun p => ((freshKernel n).pages p).link) (if m = 0 then none else some (BitVec.ofNat 20 k))
      ((List.range' k m).map (BitVec.ofNat 20)) := by
  induction m generalizing k
  case zero => simp
  case succ m ih =>
    have hk' := ih (k := k + 1) (by omega)
    have hkn : (BitVec.ofNat 20 k).toNat = k := by rw [BitVec.toNat_ofNat]; omega
    refine ⟨by simp, ?_⟩
    have hl : ((freshKernel n).pages (BitVec.ofNat 20 k)).link =
        if m = 0 then none else some (BitVec.ofNat 20 (k + 1)) := by
      simp only [freshKernel, hkn]
      have he : BitVec.ofNat 20 k + 1#20 = BitVec.ofNat 20 (k + 1) := by rw [BitVec.ofNat_add]
      by_cases hm : m = 0
      case pos => rw [if_neg (by omega), if_pos hm]
      case neg => rw [if_pos (by omega), if_neg hm, he]
    simp only [hl]
    exact hk'

theorem freshKernel_envs {n : Nat} : EnvInv (List.finRange 1024) (freshKernel n) := by
  refine ⟨?_, List.nodup_finRange _, fun {e} => by simp [freshKernel]⟩
  have he : (freshKernel n).envs = (freshKernel 0).envs := rfl
  have hf : (freshKernel n).envFreeList = (freshKernel 0).envFreeList := rfl
  rw [he, hf]
  decide +kernel

theorem freshPages_nodup {n : Nat} (hn : n < 2 ^ 20) : (freshPages n).Nodup := by
  refine List.Nodup.map_on (fun i hi j hj he => ?_) List.nodup_range'
  have hi := List.mem_range'_1.mp hi
  have hj := List.mem_range'_1.mp hj
  have he := congrArg BitVec.toNat he
  simp only [BitVec.toNat_ofNat] at he
  omega

theorem freshKernel_inv {n : Nat} (hn : n < 2 ^ 20) : MemInv { p | p ∈ freshPages n } (freshKernel n) :=
  MemInv.blank (fun _ => rfl) (fun _ => rfl) (freshKernel_chain (k := 1) (Nat.add_comm 1 n) hn)
    (freshPages_nodup hn) (fun _ hp => (mem_freshPages hn hp).2) (fun _ _ => rfl)
    (fun hk => (mem_freshPages hn hk).1 rfl) (fun _ => rfl) freshKernel_envs

-- The first environment, whose page directory is the first page, is current on the first processor.
def soleEnv (n : Nat) : Kernel :=
  ((freshKernel n).newEnv 0 1#20 0#32).setCpu 0 fun i => { i with env := some 0 }

theorem soleEnv_inv {n : Nat} (h₀ : 0 < n) (hn : n < 2 ^ 20) : MemInv { p | p ∈ freshPages n } (soleEnv n) :=
  ((freshKernel_inv hn).newEnv rfl (if_neg (by omega))).sameMem .setCpu

-- Besides, there is a second environment.
def twoEnvs (n : Nat) : Kernel :=
  (soleEnv n).newEnv 1 2#20 0#32

theorem twoEnvs_inv {n : Nat} (h₀ : 1 < n) (hn : n < 2 ^ 20) : MemInv { p | p ∈ freshPages n } (twoEnvs n) := by
  refine (soleEnv_inv (by omega) hn).newEnv rfl ?_
  simp [soleEnv, setCpu, Kernel.newEnv, setEnv, newDir, incRef, setPage, zeroPage, popFree, freshKernel, h₀]

end Jos
