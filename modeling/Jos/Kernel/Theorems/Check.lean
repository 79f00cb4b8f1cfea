import Jos.Kernel.Check
import Jos.Kernel.Theorems.Blank

-- What `check_page_free_list` makes of the list of free pages.

open Function Linked Program

namespace Jos

open Kernel

variable {s s' : Kernel} {x x' : Sorting} {y : Slot} {v head pp1 pp2 : Option Ppn} {p pp : Ppn} {l l' low high : List Ppn}
  {pdxLimit n : Nat} {firstFreePage : Word}

-- What the slots contain.
def readSlot (s : Kernel) (x : Sorting) : Slot → Option Ppn
  | .pp1     => x.pp1
  | .pp2     => x.pp2
  | .link pp => (s.pages pp).link

-- Nothing but links of pages and the head of the list differs.
structure SameLinks (l : List Ppn) (s s' : Kernel) : Prop where
  ref   : ∀ p, (s'.pages p).ref = (s.pages p).ref
  link  : ∀ p, p ∉ l → (s'.pages p).link = (s.pages p).link
  rest  : s' = { s with pages := s'.pages, pageFreeList := s'.pageFreeList, mem := s'.mem }

namespace SameLinks

theorem refl : SameLinks l s s :=
  ⟨fun _ => rfl, fun _ _ => rfl, rfl⟩

theorem trans {s'' : Kernel} (h : SameLinks l s s') (h' : SameLinks l s' s'') : SameLinks l s s'' := by
  refine ⟨fun p => (h'.ref p).trans (h.ref p), fun p hp => (h'.link p hp).trans (h.link p hp), ?_⟩
  rw [h'.rest, h.rest]

end SameLinks

theorem link_injective : Injective Slot.link :=
  fun _ _ h => Slot.link.inj h

theorem readSlot_link : readSlot s x ∘ Slot.link = fun p => (s.pages p).link :=
  rfl

-- A slot is written.
theorem storeSlot_run : ∃ x' s', (storeSlot x y v).run s = .ok x' s' ∧ x'.tp = x.tp ∧
    s'.pageFreeList = s.pageFreeList ∧ readSlot s' x' = update (readSlot s x) y v ∧
    ∀ l, (∀ p, y = .link p → p ∈ l) → SameLinks l s s' := by
  cases y
  case pp1 =>
    refine ⟨{ x with pp1 := v }, s, rfl, rfl, rfl, ?_, fun _ _ => .refl⟩
    funext z
    cases z <;> simp [readSlot]
  case pp2 =>
    refine ⟨{ x with pp2 := v }, s, rfl, rfl, rfl, ?_, fun _ _ => .refl⟩
    funext z
    cases z <;> simp [readSlot]
  case link p =>
    refine ⟨x, s.setLink p v, rfl, rfl, rfl, ?_, fun l hl => ⟨fun q => ?_, fun q hq => ?_, rfl⟩⟩
    case refine_1 =>
      funext z
      cases z
      case link q =>
        by_cases hq : q = p
        case pos => simp [readSlot, setLink, setPage, hq]
        case neg => simp [readSlot, setLink, setPage, hq]
      all_goals simp [readSlot]
    case refine_2 =>
      by_cases hq : q = p
      case pos => simp [setLink, setPage, hq]
      case neg => simp [setLink, setPage, hq]
    case refine_3 =>
      have hne : q ≠ p := by
        rintro rfl
        exact hq (hl q rfl)
      simp [setLink, setPage, hne]

def root (b : Bool) : Slot :=
  if b then .pp2 else .pp1

theorem root_ne_link {b : Bool} : root b ≠ .link p := by
  cases b <;> simp [root]

theorem root_injective : Injective root := by
  decide

-- The pages met so far of either type are a list without an end; the pages that are `left` are still linked as they were.
structure Parted (part : Bool → List Ppn) (left : List Ppn) (head : Option Ppn) (s : Kernel) (x : Sorting) : Prop where
  walk  : ∀ b, Walk Slot.link (readSlot s x) (root b) (part b) (x.tp b)
  chain : Chain (fun p => (s.pages p).link) head left
  nodup : ∀ b, (part b).Nodup
  apart : ∀ {p}, p ∈ part false → p ∉ part true
  new   : ∀ {b p}, p ∈ part b → p ∉ left

namespace Parted

variable {part : Bool → List Ppn} {left : List Ppn} {b b' : Bool}

-- The slots in which the last pointer of a list is stored.
theorem tp_cases (h : Parted part left head s x) : x.tp b = root b ∨ ∃ p ∈ part b, x.tp b = .link p :=
  (h.walk b).last

theorem not_part (h : Parted part left head s x) (hp : p ∈ part b) (hb : b' ≠ b) : p ∉ part b' := by
  cases b <;> cases b'
  case false.true => exact h.apart hp
  case true.false => exact fun hp' => h.apart hp' hp
  all_goals exact absurd rfl hb

theorem tp_ne_root (h : Parted part left head s x) (hb : b' ≠ b) : root b' ≠ x.tp b := by
  rcases h.tp_cases (b := b) with he | ⟨p, -, he⟩
  case inl =>
    rw [he]
    exact fun hr => hb (root_injective hr)
  case inr =>
    rw [he]
    exact root_ne_link

theorem tp_ne_link (h : Parted part left head s x) (hp : p ∉ part b) : Slot.link p ≠ x.tp b := by
  rcases h.tp_cases (b := b) with he | ⟨q, hq, he⟩
  case inl =>
    rw [he]
    exact root_ne_link.symm
  case inr =>
    rw [he]
    rintro ⟨⟩
    exact hp hq

theorem link_mem (h : Parted part left head s x) (hp : x.tp b = .link p) : p ∈ part b := by
  rcases h.tp_cases (b := b) with he | ⟨q, hq, he⟩
  case inl => exact absurd (he.symm.trans hp) root_ne_link
  case inr =>
    cases he.symm.trans hp
    exact hq

-- A pointer is stored where the list of the type `b` ends.
theorem store (h : Parted part left head s x) (hr : readSlot s' x' = update (readSlot s x) (x.tp b) v)
    (ht : x'.tp = x.tp) : Parted part left head s' x' := by
  refine ⟨fun b' => ?_, ?_, h.nodup, h.apart, h.new⟩
  case refine_1 =>
    rw [hr, ht]
    by_cases hb : b' = b
    case pos =>
      subst hb
      exact (h.walk b').update_last link_injective (h.nodup b') fun a _ => root_ne_link.symm
    case neg => exact (h.walk b').update (h.tp_ne_root hb) fun a ha => h.tp_ne_link (h.not_part ha (Ne.symm hb))
  case refine_2 =>
    refine h.chain.congr fun p hp => ?_
    have hne : Slot.link p ≠ x.tp b := h.tp_ne_link fun hm => h.new hm hp
    have hl := congrFun hr (.link p)
    rw [update_of_ne hne] at hl
    exact hl

-- The next page is put at the end of the list of its type.
theorem next (h : Parted part (pp :: left) head s x) (hr : readSlot s' x' = update (readSlot s x) (x.tp b) (some pp))
    (ht : x'.tp = x.tp) :
    Parted (update part b (part b ++ [pp])) left (s'.pages pp).link s' { x' with tp := update x'.tp b (.link pp) } := by
  have hs := h.store hr ht
  have hread : readSlot s' { x' with tp := update x'.tp b (.link pp) } = readSlot s' x' := by
    funext y
    cases y <;> rfl
  have hpp {b'} : pp ∉ part b' := fun hm => h.new hm (by simp)
  have hleft := List.nodup_cons.mp h.chain.nodup
  refine ⟨fun b' => ?_, hs.chain.2, fun b' => ?_, fun {p} hp hp' => ?_, fun {b' p} hp => ?_⟩
  case refine_1 =>
    rw [hread]
    by_cases hb : b' = b
    case pos =>
      subst hb
      simp only [update_self]
      refine (hs.walk b').snoc ?_
      rw [hr, ht, update_self]
    case neg =>
      simp only [update_of_ne hb]
      exact hs.walk b'
  case refine_2 =>
    by_cases hb : b' = b
    case pos =>
      subst hb
      rw [update_self]
      exact (h.nodup b').append (List.nodup_singleton pp) (by simpa using hpp)
    case neg =>
      rw [update_of_ne hb]
      exact h.nodup b'
  case refine_3 =>
    cases b
    case false =>
      rw [update_self] at hp
      rw [update_of_ne (by decide)] at hp'
      rcases List.mem_append.mp hp with hp | hp
      case inl => exact h.apart hp hp'
      case inr => exact hpp (List.mem_singleton.mp hp ▸ hp')
    case true =>
      rw [update_of_ne (by decide)] at hp
      rw [update_self] at hp'
      rcases List.mem_append.mp hp' with hp' | hp'
      case inl => exact h.apart hp hp'
      case inr => exact hpp (List.mem_singleton.mp hp' ▸ hp)
  case refine_4 =>
    by_cases hb : b' = b
    case pos =>
      subst hb
      rw [update_self] at hp
      rcases List.mem_append.mp hp with hp | hp
      case inl => exact fun hm => h.new hp (by simp [hm])
      case inr =>
        obtain rfl := List.mem_singleton.mp hp
        exact hleft.1
    case neg =>
      rw [update_of_ne hb] at hp
      exact fun hm => h.new hp (by simp [hm])

end Parted

section Loop

variable {part : Bool → List Ppn} {left : List Ppn}

variable (pdxLimit) in
-- By induction on the pages that are left. What is stored in the links of pages met before does not concern them.
theorem sortLoop_run (h : Parted part left head s x) (hn : left.length ≤ n) (hl : ∀ {b p}, p ∈ part b → p ∈ l)
    (hl' : ∀ {p}, p ∈ left → p ∈ l) :
    ∃ x' s', (sortLoop pdxLimit n head x).run s = .ok x' s' ∧
      Parted (fun b => part b ++ left.filter (pagetype pdxLimit · = b)) [] none s' x' ∧ SameLinks l s s' := by
  induction n generalizing part left head s x
  case zero =>
    obtain rfl := List.eq_nil_of_length_eq_zero (Nat.le_zero.mp hn)
    obtain rfl : head = none := h.chain
    exact ⟨x, s, rfl, by simpa using h, .refl⟩
  case succ n ih =>
    cases left
    case nil =>
      obtain rfl : head = none := h.chain
      exact ⟨x, s, rfl, by simpa using h, .refl⟩
    case cons pp left =>
      obtain rfl : head = some pp := h.chain.1
      obtain ⟨x₁, s₁, hr, ht, -, hread, hsame⟩ := storeSlot_run (s := s) (x := x) (y := x.tp (pagetype pdxLimit pp))
        (v := some pp)
      have hsame := hsame l fun p hp => hl (h.link_mem hp)
      have hnext := h.next hread ht
      rw [ht] at hnext
      have hsub {b p} (hp : p ∈ update part (pagetype pdxLimit pp) (part (pagetype pdxLimit pp) ++ [pp]) b) : p ∈ l := by
        by_cases hb : b = pagetype pdxLimit pp
        case pos =>
          rw [hb, update_self] at hp
          rcases List.mem_append.mp hp with hp | hp
          case inl => exact hl hp
          case inr =>
            obtain rfl := List.mem_singleton.mp hp
            exact hl' (by simp)
        case neg =>
          rw [update_of_ne hb] at hp
          exact hl hp
      obtain ⟨x₂, s₂, hr₂, hs₂, hsame₂⟩ := ih hnext (by simpa using hn) hsub fun hp => hl' (by simp [hp])
      refine ⟨x₂, s₂, ?_, ?_, hsame.trans hsame₂⟩
      case refine_1 =>
        simp only [sortLoop, run_bind, hr, run_get]
        rw [ht]
        exact hr₂
      case refine_2 =>
        have hpart : (fun b => update part (pagetype pdxLimit pp) (part (pagetype pdxLimit pp) ++ [pp]) b ++
            left.filter (pagetype pdxLimit · = b)) =
            fun b => part b ++ (pp :: left).filter (pagetype pdxLimit · = b) := by
          funext b
          by_cases hb : b = pagetype pdxLimit pp
          case pos => simp [hb]
          case neg => simp [hb, Ne.symm hb]
        rw [← hpart]
        exact hs₂

variable (pdxLimit pp1 pp2) in
theorem sortFreeList_run (h : s.FreeList l) : ∃ s', (sortFreeList pdxLimit pp1 pp2).run s = .ok () s' ∧
    s'.FreeList (l.filter (!pagetype pdxLimit ·) ++ l.filter (pagetype pdxLimit ·)) ∧ SameLinks l s s' := by
  have hlen : l.length ≤ 2 ^ 20 := by
    have hmap := (List.nodup_map_iff fun _ _ => BitVec.eq_of_toNat_eq).mpr h.nodup
    have hsub : l.map BitVec.toNat ⊆ List.range (2 ^ 20) := by
      intro i hi
      obtain ⟨p, -, rfl⟩ := List.mem_map.mp hi
      exact List.mem_range.mpr p.isLt
    have hle := (List.subperm_of_subset hmap hsub).length_le
    rwa [List.length_map, List.length_range] at hle
  have h₀ : Parted (fun _ => []) l s.pageFreeList s { pp1, pp2, tp := root } :=
    ⟨fun b => rfl, h, fun _ => List.nodup_nil, by simp, by simp⟩
  obtain ⟨x₁, s₁, hr₁, h₁, hs₁⟩ := sortLoop_run pdxLimit h₀ hlen (fun hp => absurd hp List.not_mem_nil) id
  have hmem {b p} (hp : x₁.tp b = .link p) : p ∈ l := by
    have hp := h₁.link_mem hp
    rw [List.nil_append] at hp
    exact (List.mem_filter.mp hp).1
  -- The list of the pages with high addresses ends here.
  obtain ⟨x₂, s₂, hr₂, ht₂, hf₂, hread₂, hs₂⟩ := storeSlot_run (s := s₁) (x := x₁) (y := x₁.tp true) (v := none)
  have h₂ := h₁.store hread₂ ht₂
  -- It follows the other list.
  obtain ⟨x₃, s₃, hr₃, ht₃, hf₃, hread₃, hs₃⟩ :=
    storeSlot_run (s := s₂) (x := x₂) (y := x₂.tp false) (v := x₂.pp2)
  have h₃ := h₂.store hread₃ ht₃
  have hend : readSlot s₃ x₃ (x₃.tp true) = none := by
    have hne : x₂.tp true ≠ x₂.tp false := by
      rcases h₂.tp_cases (b := true) with he | ⟨p, hp, he⟩
      case inl =>
        rw [he]
        exact h₂.tp_ne_root (by decide)
      case inr =>
        rw [he]
        exact h₂.tp_ne_link (h₂.not_part hp (by decide))
    rw [hread₃, ht₃, update_of_ne hne, hread₂, ht₂, update_self]
  have hlow : readSlot s₃ x₃ (x₃.tp false) = readSlot s₃ x₃ (root true) := by
    rw [hread₃, ht₃, update_self, update_of_ne (h₂.tp_ne_root (by decide))]
    rfl
  have hnil : Chain (readSlot s₃ x₃ ∘ .link) (readSlot s₃ x₃ (x₃.tp true)) [] := hend
  have hhigh := (h₃.walk true).chain hnil
  rw [List.append_nil] at hhigh
  have hall := (h₃.walk false).chain (hlow ▸ hhigh)
  refine ⟨{ s₃ with pageFreeList := x₃.pp1 }, ?_, ?_, ?_⟩
  case refine_1 =>
    have hr₁ : (sortLoop pdxLimit (2 ^ 20) s.pageFreeList
        { pp1, pp2, tp := fun b => if b then .pp2 else .pp1 }).run s = .ok x₁ s₁ := hr₁
    simp only [sortFreeList, run_bind, run_get, hr₁, hr₂, hr₃, run_modify]
  case refine_2 =>
    have hp : readSlot s₃ x₃ (root false) = x₃.pp1 := rfl
    rw [hp] at hall
    simpa [readSlot_link, FreeList] using hall
  case refine_3 =>
    have hs := (hs₁.trans (hs₂ l fun p => hmem)).trans (hs₃ l fun p hp => hmem (ht₂ ▸ hp))
    refine ⟨hs.ref, hs.link, ?_⟩
    rw [hs.rest]

end Loop

-- Only the contents of pages differ.
def SameList (s s' : Kernel) : Prop :=
  s' = { s with mem := s'.mem }

instance : Std.Refl SameList where
  refl _ := rfl

instance : IsTrans Kernel SameList where
  trans s s' s'' h h' := by
    rw [SameList] at h h' ⊢
    rw [h', h]

section Keeps

variable {b : Bool} {k : Nat × Nat}

theorem sameList_assert : KeepsOr SameList (· = .panic) (assert b) := by
  cases b
  case false => exact .throw rfl
  case true => exact .pure

theorem sameList_poisonLoop : KeepsOr SameList (· = .panic) (poisonLoop pdxLimit n head) := by
  induction n generalizing head
  case zero => exact .pure
  case succ n ih =>
    cases head
    case none => exact .pure
    case some pp =>
      rw [poisonLoop]
      have hrest : KeepsOr SameList (· = .panic) (do poisonLoop pdxLimit n ((← get).pages pp).link) :=
        .bind .get fun _ => ih
      split
      case isTrue => exact .bind keepsOr_kaddr fun _ => .bind (.modify fun _ => rfl) fun _ => hrest
      case isFalse => exact hrest

theorem sameList_checkPage : KeepsOr SameList (· = .panic) (checkPage firstFreePage pp) := by
  refine .bind .get fun s => .bind sameList_assert fun _ => .bind sameList_assert fun _ => .bind sameList_assert fun _ =>
    .bind sameList_assert fun _ => .bind sameList_assert fun _ => ?_
  split
  case isTrue => exact .bind keepsOr_kaddr fun _ => .bind sameList_assert fun _ => sameList_assert
  case isFalse => exact sameList_assert

theorem sameList_checkLoop : KeepsOr SameList (· = .panic) (checkLoop firstFreePage n head k) := by
  induction n generalizing head k
  case zero => exact .pure
  case succ n ih =>
    cases head
    case none => exact .pure
    case some pp => exact .bind sameList_checkPage fun _ => .bind .get fun _ => ih

theorem sameList_checkPages : KeepsOr SameList (· = .panic) (checkPages pdxLimit firstFreePage) :=
  .bind .get fun _ => .bind sameList_poisonLoop fun _ => .bind .get fun _ => .bind sameList_checkLoop fun _ =>
    .bind sameList_assert fun _ => sameList_assert

end Keeps

variable (firstFreePage pp1 pp2) in
-- However the check of the pages ends, those with low addresses are in front of the others then.
theorem check_page_free_list_partitions (h : s.FreeList l) :
    ∃ s', ((checkPageFreeList firstFreePage pp1 pp2 true).run s = .ok () s' ∨
        (checkPageFreeList firstFreePage pp1 pp2 true).run s = .error .panic s') ∧
      s'.FreeList (l.filter (fun pp => (pdx (page2pa pp)).val < 1) ++ l.filter (fun pp => ¬(pdx (page2pa pp)).val < 1)) ∧
      SameLinks l s s' := by
  have hlow : l.filter (fun pp => (pdx (page2pa pp)).val < 1) = l.filter (!pagetype 1 ·) := by
    congr 1
    funext pp
    rw [pagetype, ← decide_not]
    simp only [Nat.not_le]
  have hhigh : l.filter (fun pp => ¬(pdx (page2pa pp)).val < 1) = l.filter (pagetype 1 ·) := by
    congr 1
    funext pp
    rw [pagetype]
    simp only [Nat.not_lt]
  rw [hlow, hhigh]
  cases hf : s.pageFreeList
  case none =>
    obtain rfl : l = [] := by
      rw [FreeList, hf] at h
      exact h.head_none
    refine ⟨s, .inr ?_, h, .refl⟩
    simp [checkPageFreeList, hf]
  case some pp =>
    obtain ⟨s₁, hr, hl, hs⟩ := sortFreeList_run pp1 pp2 1 h
    have hrun : (checkPageFreeList firstFreePage pp1 pp2 true).run s = (checkPages 1 firstFreePage).run s₁ := by
      simp [checkPageFreeList, hf, hr]
    rw [hrun]
    have hkept {s'} (hk : SameList s₁ s') : s'.FreeList (l.filter (!pagetype 1 ·) ++ l.filter (pagetype 1 ·)) ∧
        SameLinks l s s' := by
      rw [SameList] at hk
      refine ⟨?_, hs.trans ⟨fun p => ?_, fun p _ => ?_, ?_⟩⟩
      all_goals rw [hk]
      exact hl
    rcases sameList_checkPages.run_cases s₁ with ⟨⟨⟩, s', h₁, hk⟩ | ⟨_, s', h₁, rfl, hk⟩
    case inl => exact ⟨s', .inl h₁, hkept hk⟩
    case inr => exact ⟨s', .inr h₁, hkept hk⟩

-- Pages with high and low addresses take turns.
def mixedPages : Kernel :=
  { freshKernel 8 with
    pages := fun p =>
      { link := if p = 0x500#20 then some 1#20 else if p = 1#20 then some 0x600#20 else if p = 0x600#20 then some 2#20 else none
        ref := 0 }
    pageFreeList := some 0x500#20 }

theorem check_page_free_list_partitions_mixed :
    ∃ s', ((checkPageFreeList 0xF0500000#32 none (some 7#20) true).run mixedPages = .ok () s' ∨
        (checkPageFreeList 0xF0500000#32 none (some 7#20) true).run mixedPages = .error .panic s') ∧
      s'.FreeList [1#20, 2#20, 0x500#20, 0x600#20] := by
  have h : mixedPages.FreeList [0x500#20, 1#20, 0x600#20, 2#20] := by decide
  obtain ⟨s', hr, hl, -⟩ := check_page_free_list_partitions none (some 7#20) 0xF0500000#32 h
  exact ⟨s', hr, hl⟩

end Jos
