import Jos.User.Upcall

-- A program that has taken a page fault goes on as if nothing had happened.

open Function Bytes

namespace Jos

variable {k : Upcall} {u u' v : UserCpu} {W : Set Word} {F : UserCpu → UserCpu → Set Word → Prop} {n : Nat}
  {m m' : Mem} {esp a x w off oesp err faultVa : Word} {tf : Trapframe} {r : Reg}

section Stack

theorem onUxstack_iff : OnUxstack x ↔ 0xEEBFF000 ≤ x.toNat ∧ x.toNat < 0xEEC00000 := by
  have hl : (uxstacktop - pgsize).toNat = 0xEEBFF000 := by decide
  have hu : uxstacktop.toNat = 0xEEC00000 := by decide
  rw [OnUxstack, BitVec.le_def, BitVec.lt_def, hl, hu]

theorem upcallEsp_nested (h : OnUxstack esp) : upcallEsp esp = esp - 56#32 := by
  have h' : esp < uxstacktop ∧ esp ≥ uxstacktop - pgsize := ⟨h.2, h.1⟩
  rw [upcallEsp, if_pos h']
  apply BitVec.eq_of_toNat_eq
  simp only [BitVec.toNat_sub, BitVec.toNat_ofNat]
  omega

theorem upcallEsp_plain (h : ¬OnUxstack esp) : upcallEsp esp = uxstacktop - 52#32 := by
  have h' : ¬(esp < uxstacktop ∧ esp ≥ uxstacktop - pgsize) := fun h' => h ⟨h'.2, h'.1⟩
  rw [upcallEsp, if_neg h']

-- Where the frame lies.
theorem upcallEsp_bounds (h : Room esp) :
    0xEEBFF008 ≤ (upcallEsp esp).toNat ∧ (upcallEsp esp).toNat + 52 ≤ 0xEEC00000 ∧
    (OnUxstack esp → (upcallEsp esp).toNat + 56 = esp.toNat) := by
  by_cases hn : OnUxstack esp
  case pos =>
    have hl : (uxstacktop - pgsize + 64#32).toNat = 0xEEBFF040 := by decide
    have hr := h.nested hn
    rw [BitVec.le_def, hl] at hr
    obtain ⟨h₁, h₂⟩ := onUxstack_iff.mp hn
    rw [upcallEsp_nested hn, BitVec.toNat_sub]
    simp only [BitVec.toNat_ofNat]
    omega
  case neg =>
    have hu : (uxstacktop - 52#32).toNat = 0xEEBFFFCC := by decide
    rw [upcallEsp_plain hn, hu]
    exact ⟨by decide, by decide, fun hc => absurd hc hn⟩

theorem inFrame_iff (h : Room esp) :
    InFrame esp x ↔ (upcallEsp esp).toNat ≤ x.toNat ∧ x.toNat < (upcallEsp esp).toNat + 52 := by
  obtain ⟨h₁, h₂, -⟩ := upcallEsp_bounds h
  have hx := x.isLt
  rw [InFrame, BitVec.lt_def, BitVec.toNat_sub]
  simp only [BitVec.toNat_ofNat]
  omega

-- The delivery of a fault uses the exception stack from below up to the end of the frame.
theorem scratch_of_le (h : Room esp) (hx : 0xEEBFF000 ≤ x.toNat) (hx' : x.toNat < (upcallEsp esp).toNat + 52) :
    Scratch esp x := by
  obtain ⟨h₁, h₂, h₃⟩ := upcallEsp_bounds h
  rw [Scratch]
  split
  case isTrue hn =>
    have hl : (uxstacktop - pgsize).toNat = 0xEEBFF000 := by decide
    have := h₃ hn
    rw [BitVec.le_def, BitVec.lt_def, hl]
    omega
  case isFalse => exact .inl (onUxstack_iff.mpr (by omega))

theorem scratch_of_word (h : Room esp) (hx : x - (esp - 4#32) < 4#32) : Scratch esp x := by
  rw [Scratch]
  split
  case isTrue hn =>
    have hl : (uxstacktop - pgsize).toNat = 0xEEBFF000 := by decide
    have hl' : (uxstacktop - pgsize + 64#32).toNat = 0xEEBFF040 := by decide
    have hr := h.nested hn
    obtain ⟨h₁, h₂⟩ := onUxstack_iff.mp hn
    rw [BitVec.le_def, hl'] at hr
    rw [BitVec.lt_def, BitVec.toNat_sub, BitVec.toNat_sub] at hx
    simp only [BitVec.toNat_ofNat] at hx
    rw [BitVec.le_def, BitVec.lt_def, hl]
    omega
  case isFalse => exact .inr hx

-- A word of the frame and the word below the stack pointer.
theorem apart_word (h : Room esp) (ho : off.toNat + 4 ≤ 52) : Apart (upcallEsp esp + off) (esp - 4#32) := by
  obtain ⟨h₁, h₂, h₃⟩ := upcallEsp_bounds h
  by_cases hn : OnUxstack esp
  case pos =>
    have := h₃ hn
    obtain ⟨h₄, h₅⟩ := onUxstack_iff.mp hn
    simp only [Apart, BitVec.le_def, BitVec.toNat_sub, BitVec.toNat_add, BitVec.toNat_ofNat]
    omega
  case neg =>
    have hx := h.plain hn
    have hv : (upcallEsp esp + off).toNat = (upcallEsp esp).toNat + off.toNat := by
      rw [BitVec.toNat_add]
      omega
    refine ⟨?_, ?_⟩ <;> rw [← BitVec.not_lt] <;> intro hlt
    case refine_1 =>
      refine hx _ hlt (onUxstack_iff.mpr ?_)
      rw [hv]
      omega
    case refine_2 =>
      refine hx (esp - 4#32) (by rw [BitVec.sub_self]; decide) (onUxstack_iff.mpr ?_)
      have hd : (esp - 4#32).toNat = (upcallEsp esp + off).toNat + (esp - 4#32 - (upcallEsp esp + off)).toNat := by
        rw [BitVec.lt_def, BitVec.toNat_sub, hv] at hlt
        simp only [BitVec.toNat_ofNat] at hlt
        rw [BitVec.toNat_sub (esp - 4#32), hv]
        omega
      rw [BitVec.lt_def] at hlt
      simp only [BitVec.toNat_ofNat] at hlt
      rw [hd, hv]
      omega

end Stack

section Registers

@[simp]
theorem UserCpu.set_regs : (u.set r w).regs r = w :=
  update_self ..

@[simp]
theorem UserCpu.set_regs_of_ne {r' : Reg} (h : r' ≠ r) : (u.set r w).regs r' = u.regs r' :=
  update_of_ne h ..

@[simp]
theorem UserCpu.set_mem : (u.set r w).mem = u.mem :=
  rfl

@[simp]
theorem UserCpu.set_eflags : (u.set r w).eflags = u.eflags :=
  rfl

@[simp]
theorem UserCpu.pop_esp : u.pop.regs .esp = u.regs .esp + 4#32 :=
  set_regs

@[simp]
theorem UserCpu.pop_regs (h : r ≠ .esp) : u.pop.regs r = u.regs r :=
  update_of_ne h ..

@[simp]
theorem UserCpu.pop_mem : u.pop.mem = u.mem :=
  rfl

@[simp]
theorem UserCpu.pop_eflags : u.pop.eflags = u.eflags :=
  rfl

@[simp]
theorem UserCpu.popReg_mem : (u.popReg r).mem = u.mem :=
  rfl

@[simp]
theorem UserCpu.popReg_eflags : (u.popReg r).eflags = u.eflags :=
  rfl

@[simp]
theorem UserCpu.popReg_self : (u.popReg r).regs r = load u.mem (u.regs .esp) :=
  update_self ..

@[simp]
theorem UserCpu.popReg_esp (h : r ≠ .esp) : (u.popReg r).regs .esp = u.regs .esp + 4#32 := by
  rw [popReg, set_regs_of_ne h.symm, pop_esp]

@[simp]
theorem UserCpu.popReg_regs {r' : Reg} (h : r' ≠ r) (h' : r' ≠ .esp) : (u.popReg r).regs r' = u.regs r' := by
  rw [popReg, set_regs_of_ne h, pop_regs h']

theorem setFlags_privileged : setFlags a x &&& flPrivileged = a &&& flPrivileged := by
  ext i hi
  simp only [setFlags, BitVec.getElem_and, BitVec.getElem_or, BitVec.getElem_not]
  cases flPrivileged[i] <;> simp

theorem setFlags_congr (h : a &&& flPrivileged = x &&& flPrivileged) : setFlags a w = setFlags x w := by
  rw [setFlags, setFlags, h]

theorem setFlags_self (h : a &&& flPrivileged = x &&& flPrivileged) : setFlags a x = x := by
  rw [setFlags_congr h, setFlags]
  ext i hi
  simp only [BitVec.getElem_and, BitVec.getElem_or, BitVec.getElem_not]
  cases flPrivileged[i] <;> simp

end Registers

section Entered

theorem utrapframe_offsets : (utrapframe tf faultVa).map Prod.fst =
    [0#32, 4#32, 8#32, 12#32, 16#32, 20#32, 24#32, 28#32, 32#32, 36#32, 48#32, 40#32, 44#32] :=
  rfl

theorem utrapframe_apart : ((utrapframe tf faultVa).map Prod.fst).Pairwise Apart := by
  rw [utrapframe_offsets]
  decide

theorem utrapframe_bound {p : Word × Word} (hp : p ∈ utrapframe tf faultVa) : p.1.toNat + 4 ≤ 52 := by
  have hb : ∀ off ∈ (utrapframe tf faultVa).map Prod.fst, off.toNat + 4 ≤ 52 := by
    rw [utrapframe_offsets]
    simp
  exact hb _ (List.mem_map_of_mem hp)

theorem sub_four_four : x - 4#32 - 4#32 = x - 8#32 := by
  apply BitVec.eq_of_toNat_eq
  simp only [BitVec.toNat_sub, BitVec.toNat_ofNat]
  omega

namespace Upcall

theorem entered_esp : (k.entered oesp err faultVa u).regs .esp = upcallEsp (u.regs .esp) - 8#32 := by
  rw [← sub_four_four]
  simp [entered, run, callHandler, exec, pageFault, UserCpu.push, UserCpu.set, Operand.read, Operand.write]

theorem entered_eflags : (k.entered oesp err faultVa u).eflags = u.eflags :=
  rfl

theorem entered_mem : (k.entered oesp err faultVa u).mem =
    store (store (k.pageFault oesp err faultVa u).mem (upcallEsp (u.regs .esp) - 4#32) (upcallEsp (u.regs .esp)))
      (upcallEsp (u.regs .esp) - 8#32) k.back := by
  rw [← sub_four_four]
  simp [entered, run, callHandler, exec, pageFault, UserCpu.push, UserCpu.set, Operand.read, Operand.write]

-- The call of the handler does not touch the frame, nor what lies above it.
theorem entered_mem_of_ge (h : Room (u.regs .esp)) (hx : ¬x.toNat < (upcallEsp (u.regs .esp)).toNat ∨ x.toNat < 0xEEBFF000) :
    (k.entered oesp err faultVa u).mem x = (k.pageFault oesp err faultVa u).mem x := by
  obtain ⟨h₁, h₂, -⟩ := upcallEsp_bounds h
  have hn {c : Word} (hc : c = 4#32 ∨ c = 8#32) : ¬x - (upcallEsp (u.regs .esp) - c) < 4#32 := by
    rw [BitVec.lt_def, BitVec.toNat_sub, BitVec.toNat_sub]
    rcases hc with rfl | rfl <;> simp only [BitVec.toNat_ofNat] <;> omega
  rw [entered_mem, store_of_not (hn (.inr rfl)), store_of_not (hn (.inl rfl))]

theorem pageFault_mem_of_not (h : Room (u.regs .esp)) (hx : ¬InFrame (u.regs .esp) x) :
    (k.pageFault oesp err faultVa u).mem x = u.mem x := by
  obtain ⟨h₁, h₂, -⟩ := upcallEsp_bounds h
  refine storeAll_of_not fun p hp hlt => hx ?_
  have hb := utrapframe_bound hp
  simp only [BitVec.lt_def, BitVec.toNat_sub, BitVec.toNat_add, BitVec.toNat_ofNat] at hlt
  rw [inFrame_iff h]
  omega

-- The words of the frame are still there for everyone who has left the frame alone.
theorem load_frame (h : Room (u.regs .esp)) (hm : ∀ x, InFrame (u.regs .esp) x → m x = (k.entered oesp err faultVa u).mem x)
    (hw : (off, w) ∈ utrapframe (u.trapframe oesp err) faultVa) : load m (upcallEsp (u.regs .esp) + off) = w := by
  have hb := utrapframe_bound hw
  obtain ⟨h₁, h₂, -⟩ := upcallEsp_bounds h
  rw [← load_storeAll (m := u.mem) (b := upcallEsp (u.regs .esp)) utrapframe_apart hw]
  refine load_congr fun x hx => ?_
  have hf : InFrame (u.regs .esp) x := by
    simp only [BitVec.lt_def, BitVec.toNat_sub, BitVec.toNat_add, BitVec.toNat_ofNat] at hx
    rw [inFrame_iff h]
    simp only at hb
    omega
  rw [hm x hf, entered_mem_of_ge h (.inl (by have := (inFrame_iff h).mp hf; omega))]
  rfl

end Upcall

end Entered

-- The program goes on as if the fault had not happened.
structure Restored (W : Set Word) (u u' : UserCpu) : Prop where
  regs   : u'.regs = u.regs
  eip    : u'.eip = u.eip
  eflags : u'.eflags = u.eflags
  mem    : ∀ x, x ∉ W → ¬Scratch (u.regs .esp) x → u'.mem x = u.mem x

-- If the program goes on after each fault, all that changes while the handler runs is what it writes to, and the part
-- of the exception stack below it.
theorem HandlerRuns.unchanged (hF : ∀ u u' W, F u u' W → Restored W u u') (h : HandlerRuns F esp u v W) :
    v.eflags &&& flPrivileged = u.eflags &&& flPrivileged ∧
    ∀ x, x ∉ W → ¬(0xEEBFF000 ≤ x.toNat ∧ x.toNat < esp.toNat) → v.mem x = u.mem x := by
  induction h
  case done => exact ⟨rfl, fun _ _ _ => rfl⟩
  case step u u' v W W' hm hf _ ih =>
    refine ⟨ih.1.trans hf, fun x hx hn => ?_⟩
    rw [Set.mem_union, not_or] at hx
    rw [ih.2 x hx.2 hn, hm x hx.1]
  case fault u u' v W W' hu hle hf _ ih =>
    have hr := hF _ _ _ hf
    refine ⟨by rw [ih.1, hr.eflags], fun x hx hn => ?_⟩
    rw [Set.mem_union, not_or] at hx
    rw [ih.2 x hx.2 hn, hr.mem x hx.1]
    intro hs
    have hl : (uxstacktop - pgsize).toNat = 0xEEBFF000 := by decide
    rw [Scratch, if_pos hu, BitVec.le_def, BitVec.lt_def, hl] at hs
    rw [BitVec.le_def] at hle
    exact hn ⟨hs.1, Nat.lt_of_lt_of_le hs.2 hle⟩

section Return

-- What the handler leaves for the second half of the upcall.
structure Returned (esp : Word) (tf : Trapframe) (faultVa : Word) (v : UserCpu) : Prop where
  sp    : v.regs .esp = upcallEsp esp - 4#32
  frame : ∀ {off w}, (off, w) ∈ utrapframe tf faultVa → load v.mem (upcallEsp esp + off) = w

variable (h : Returned esp tf faultVa v) (hr : Room esp) (he : tf.esp = esp)

-- The memory with which the second half of the upcall ends.
def returnMem (esp eip : Word) (m : Mem) : Mem :=
  store (store m (esp - 4#32) eip) (upcallEsp esp + 48#32) (esp - 4#32)

include hr h in
-- The words of the frame that are still to be popped when the stack of the program has been prepared.
theorem Returned.load_frame (hm : (off, w) ∈ utrapframe tf faultVa) (ho : off ≠ 48#32) :
    load (returnMem esp tf.eip v.mem) (upcallEsp esp + off) = w := by
  have ha : ∀ o ∈ (utrapframe tf faultVa).map Prod.fst, o ≠ 48#32 → Apart o 48#32 := by
    rw [utrapframe_offsets]
    simp [Apart]
  have hb := utrapframe_bound hm
  rw [returnMem, load_store_of_apart (apart_add.mpr (ha off (List.mem_map_of_mem hm) ho)),
    load_store_of_apart (apart_word hr hb), h.frame hm]

include hr in
theorem load_returnMem_eip : load (returnMem esp w m) (esp - 4#32) = w := by
  rw [returnMem, load_store_of_apart (apart_word hr (by decide)).symm, load_store]

include h he in
-- The trap-time `%eip` has been pushed onto the stack of the program.
theorem Upcall.run_pushEip : ∃ v', k.run (returnToTrap.take 6) v = v' ∧ v'.regs .esp = upcallEsp esp ∧
    v'.mem = returnMem esp tf.eip v.mem ∧ v'.eflags &&& flPrivileged = v.eflags &&& flPrivileged := by
  have h48 : load v.mem (upcallEsp esp + 48#32) = tf.esp := h.frame (by simp [utrapframe])
  have h40 : load v.mem (upcallEsp esp + 40#32) = tf.eip := h.frame (by simp [utrapframe])
  rw [he] at h48
  refine ⟨_, rfl, ?_⟩
  simp [run, returnToTrap, exec, Operand.read, Operand.write, h.sp, h48, h40, returnMem, setFlags_privileged,
    BitVec.sub_add_cancel]

-- The registers have been popped.
theorem Upcall.run_popAll_regs (hs : v.regs .esp = a) :
    (k.run (returnToTrap.drop 6) v).regs = fun
        | .edi => load v.mem (a + 8#32)
        | .esi => load v.mem (a + 12#32)
        | .ebp => load v.mem (a + 16#32)
        | .esp => load v.mem (a + 48#32) + 4#32
        | .ebx => load v.mem (a + 24#32)
        | .edx => load v.mem (a + 28#32)
        | .ecx => load v.mem (a + 32#32)
        | .eax => load v.mem (a + 36#32) := by
  funext r
  cases r <;> simp [run, returnToTrap, exec, hs, BitVec.add_assoc]

theorem Upcall.run_popAll_eip (hs : v.regs .esp = a) :
    (k.run (returnToTrap.drop 6) v).eip = load v.mem (load v.mem (a + 48#32)) := by
  simp [run, returnToTrap, exec, hs, BitVec.add_assoc, UserCpu.top]

theorem Upcall.run_popAll_eflags (hs : v.regs .esp = a) :
    (k.run (returnToTrap.drop 6) v).eflags = setFlags v.eflags (load v.mem (a + 44#32)) := by
  have hf {x y z w : Word} : setFlags (setFlags (setFlags x y) z) w = setFlags x w :=
    setFlags_congr (setFlags_privileged.trans setFlags_privileged)
  simp [run, returnToTrap, exec, hs, BitVec.add_assoc, UserCpu.top, hf]

theorem Upcall.run_popAll_mem : (k.run (returnToTrap.drop 6) v).mem = v.mem := by
  simp [run, returnToTrap, exec]

include h hr he in
theorem Upcall.returnToTrap_restores : (k.run returnToTrap v).regs = (fun
        | .edi => tf.regs.edi
        | .esi => tf.regs.esi
        | .ebp => tf.regs.ebp
        | .esp => esp
        | .ebx => tf.regs.ebx
        | .edx => tf.regs.edx
        | .ecx => tf.regs.ecx
        | .eax => tf.regs.eax) ∧
    (k.run returnToTrap v).eip = tf.eip ∧ (k.run returnToTrap v).eflags = setFlags v.eflags tf.eflags ∧
    (k.run returnToTrap v).mem = returnMem esp tf.eip v.mem := by
  obtain ⟨v', hv, hs, hm, hf⟩ := run_pushEip (k := k) h he
  have hrun : k.run returnToTrap v = k.run (returnToTrap.drop 6) v' := by
    rw [← hv, run, run, run, ← List.foldl_append, List.take_append_drop]
  have hl {off w} (hw : (off, w) ∈ utrapframe tf faultVa) (ho : off ≠ 48#32) :
      load v'.mem (upcallEsp esp + off) = w := by
    rw [hm, h.load_frame hr hw ho]
  have h48 : load v'.mem (upcallEsp esp + 48#32) = esp - 4#32 := by rw [hm, returnMem, load_store]
  rw [hrun, run_popAll_regs hs, run_popAll_eip hs, run_popAll_eflags hs, run_popAll_mem, h48, setFlags_congr hf,
    hl (w := tf.regs.edi) (by simp [utrapframe]) (by decide), hl (w := tf.regs.esi) (by simp [utrapframe]) (by decide),
    hl (w := tf.regs.ebp) (by simp [utrapframe]) (by decide), hl (w := tf.regs.ebx) (by simp [utrapframe]) (by decide),
    hl (w := tf.regs.edx) (by simp [utrapframe]) (by decide), hl (w := tf.regs.ecx) (by simp [utrapframe]) (by decide),
    hl (w := tf.regs.eax) (by simp [utrapframe]) (by decide), hl (w := tf.eflags) (by simp [utrapframe]) (by decide),
    hm, load_returnMem_eip hr, BitVec.sub_add_cancel]
  exact ⟨rfl, rfl, rfl, rfl⟩

end Return

-- The memory after the second half of the upcall.
theorem returnMem_of_not (hr : Room esp) (hx : ¬Scratch esp x) : returnMem esp w m x = m x := by
  have hf : ¬x - (upcallEsp esp + 48#32) < 4#32 := by
    intro hc
    obtain ⟨h₁, h₂, -⟩ := upcallEsp_bounds hr
    simp only [BitVec.lt_def, BitVec.toNat_sub, BitVec.toNat_add, BitVec.toNat_ofNat] at hc
    exact hx (scratch_of_le hr (by omega) (by omega))
  rw [returnMem, store_of_not hf, store_of_not fun hc => hx (scratch_of_word hr hc)]

-- To any depth of nested faults, the program goes on with the registers it has had, and nothing it could be interested
-- in has changed other than by the handler.
theorem fault_transparent (h : k.Faults n u u' W) : Restored W u u' := by
  induction n generalizing u u' W
  case zero => exact h.elim
  case succ n ih =>
    obtain ⟨oesp, err, faultVa, v, hr, hh, hsp, -, hw, rfl⟩ := h
    obtain ⟨h₁, h₂, -⟩ := upcallEsp_bounds hr
    obtain ⟨hfl, hmem⟩ := hh.unchanged fun _ _ _ hf => ih hf
    have hesp : ((k.entered oesp err faultVa u).regs .esp).toNat = (upcallEsp (u.regs .esp)).toNat - 8 := by
      rw [Upcall.entered_esp, BitVec.toNat_sub]
      simp only [BitVec.toNat_ofNat]
      omega
    have hret : Returned (u.regs .esp) (u.trapframe oesp err) faultVa v := by
      refine ⟨?_, fun hm => Upcall.load_frame hr (fun x hx => hmem x (hw x hx) ?_) hm⟩
      case refine_1 =>
        rw [hsp, Upcall.entered_esp, ← sub_four_four, BitVec.sub_add_cancel]
      case refine_2 =>
        rw [hesp]
        have := (inFrame_iff hr).mp hx
        omega
    obtain ⟨hregs, heip, heflags, hm⟩ := Upcall.returnToTrap_restores (k := k) hret hr rfl
    refine ⟨?_, heip, ?_, fun x hx hs => ?_⟩
    case refine_1 =>
      rw [hregs]
      funext r
      cases r <;> rfl
    case refine_2 => exact heflags.trans (setFlags_self hfl)
    case refine_3 =>
      have hx' : ¬(0xEEBFF000 ≤ x.toNat ∧ x.toNat < (upcallEsp (u.regs .esp)).toNat + 52) :=
        fun hc => hs (scratch_of_le hr hc.1 hc.2)
      rw [hm, returnMem_of_not hr hs, hmem x hx (by omega), Upcall.entered_mem_of_ge hr (by omega),
        Upcall.pageFault_mem_of_not hr (by rw [inFrame_iff hr]; omega)]

section Idle

open Upcall

-- A program with an empty memory that has faulted on its regular stack, and a handler that returns at once.
def idleUpcall : Upcall where
  entry   := 0x800020#32
  back    := 0x80002A#32
  handler := 0x802000#32
  add x y := x + y
  sub x y := x - y

def idle : UserCpu where
  regs _ := 0xEEBFD000#32
  eip    := 0x800100#32
  eflags := 0x202#32
  mem _  := 0#8

def idleEntered : UserCpu :=
  idleUpcall.entered 0#32 0#32 0#32 idle

theorem idle_room : Room (idle.regs .esp) where
  nested h := absurd h (by decide)
  plain _ x hx := by
    rw [onUxstack_iff]
    have he : idle.regs .esp = 0xEEBFD000#32 := rfl
    simp only [he, BitVec.lt_def, BitVec.toNat_sub, BitVec.toNat_ofNat] at hx
    omega

theorem idle_faults :
    idleUpcall.Faults 1 idle (idleUpcall.run returnToTrap (idleUpcall.exec idleEntered .ret)) ∅ := by
  have hd : HandlerRuns (idleUpcall.Faults 0) (idleEntered.regs .esp) (idleUpcall.exec idleEntered .ret)
      (idleUpcall.exec idleEntered .ret) ∅ := .done
  have hs : HandlerRuns (idleUpcall.Faults 0) (idleEntered.regs .esp) idleEntered (idleUpcall.exec idleEntered .ret)
      (∅ ∪ ∅) := by
    refine .step ?_ ?_ hd
    case refine_1 => exact fun _ _ => rfl
    case refine_2 => rfl
  rw [Set.union_empty] at hs
  refine ⟨0#32, 0#32, 0#32, _, idle_room, hs, rfl, ?_, fun _ _ => Set.notMem_empty _, rfl⟩
  have hm : idleEntered.mem = _ := Upcall.entered_mem
  have hsp : idleEntered.regs .esp = _ := Upcall.entered_esp
  change load idleEntered.mem (idleEntered.regs .esp) = _
  rw [hm, hsp, load_store]

theorem fault_transparent_idle : Restored ∅ idle (idleUpcall.run returnToTrap (idleUpcall.exec idleEntered .ret)) :=
  fault_transparent idle_faults

-- A handler that adds two to the trap-time `%eip` in the frame, to skip an instruction.
def idleSkipped : UserCpu :=
  { idleUpcall.exec idleEntered .ret with
    mem := store idleEntered.mem (upcallEsp (idle.regs .esp) + 40#32) 0x800102#32 }

-- The frame itself lies above the stack pointer of the program. And a handler that changes the frame changes the
-- registers the program goes on with.
theorem fault_not_transparent :
    (idleUpcall.Faults 1 idle (idleUpcall.run returnToTrap (idleUpcall.exec idleEntered .ret)) ∅ ∧ ∃ x,
      idle.regs .esp ≤ x ∧ (idleUpcall.run returnToTrap (idleUpcall.exec idleEntered .ret)).mem x ≠ idle.mem x) ∧
    (∃ W, HandlerRuns (idleUpcall.Faults 0) (idleEntered.regs .esp) idleEntered idleSkipped W ∧
      idleSkipped.regs .esp = idleEntered.regs .esp + 4#32 ∧ idleSkipped.eip = idleUpcall.back) ∧
    (idleUpcall.run returnToTrap idleSkipped).eip ≠ idle.eip := by
  refine ⟨⟨idle_faults, uxstacktop - 4#32, by decide, ?_⟩,
    ⟨{ x | x - (upcallEsp (idle.regs .esp) + 40#32) < 4#32 } ∪ ∅, ?_, rfl, ?_⟩, ?_⟩
  case refine_1 =>
    have hv : (idleUpcall.run returnToTrap (idleUpcall.exec idleEntered .ret)).mem (uxstacktop - 4#32) = 0xFC#8 := by
      decide +kernel
    rw [hv]
    decide
  case refine_2 =>
    have hd : HandlerRuns (idleUpcall.Faults 0) (idleEntered.regs .esp) idleSkipped idleSkipped ∅ := .done
    refine .step (fun x hx => ?_) ?_ hd
    case refine_1 => exact store_of_not hx
    case refine_2 => rfl
  case refine_3 => decide +kernel
  case refine_4 =>
    have hv : (idleUpcall.run returnToTrap idleSkipped).eip = 0x800102#32 := by
      decide +kernel
    rw [hv]
    decide

end Idle

end Jos
