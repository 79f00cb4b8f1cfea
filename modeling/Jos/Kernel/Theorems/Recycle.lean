import Jos.Kernel.Theorems.Blank

-- What `page_free` notices when it is given a page that is on the free list already.

open Function Program

namespace Jos

open Kernel

variable {s s' : Kernel} {p q : Ppn} {l : List Ppn} {zero : Bool} {x : Option Ppn}

namespace Kernel

-- The links lead from `page_free_list` to the null pointer, without coming across a page twice.
def Listed (s : Kernel) : Prop :=
  ∃ l, s.FreeList l ∧ l.Nodup

-- The last page of the free list.
def LastFree (s : Kernel) (p : Ppn) : Prop :=
  ∃ l, s.FreeList (l ++ [p])

-- The pages that lie on the list.
def OnList (s : Kernel) (p : Ppn) : Prop :=
  ∃ l, s.FreeList l ∧ p ∈ l

theorem FreeList.listed (h : s.FreeList l) : s.Listed :=
  ⟨l, h, Linked.Chain.nodup h⟩

theorem FreeList.onList_iff (h : s.FreeList l) : s.OnList p ↔ p ∈ l := by
  refine ⟨?_, fun hp => ⟨l, h, hp⟩⟩
  rintro ⟨l', h', hp⟩
  rwa [Linked.Chain.unique h h']

theorem FreeList.lastFree_iff (h : s.FreeList l) : s.LastFree p ↔ p ∈ l ∧ (s.pages p).link = none := by
  constructor
  case mp =>
    rintro ⟨l', hl'⟩
    have he := Linked.Chain.unique h hl'
    subst he
    exact ⟨by simp, (Linked.Chain.next_eq_none h (by simp)).mpr ⟨l', rfl⟩⟩
  case mpr =>
    rintro ⟨hp, hn⟩
    obtain ⟨l', rfl⟩ := (Linked.Chain.next_eq_none h hp).mp hn
    exact ⟨l', h⟩

theorem FreeList.pop (h : s.FreeList (p :: l)) : (s.popFree p).FreeList l := by
  have hn := Linked.Chain.nodup h
  have hh : s.pageFreeList = some p := h.1
  rw [FreeList, hh] at h
  simp only [FreeList, link_popFree]
  exact h.pop hn none

theorem FreeList.push (h : s.FreeList l) (hp : p ∉ l) : (s.pushFree p).FreeList (p :: l) := by
  simp only [FreeList, link_pushFree]
  exact Linked.Chain.push h hp

theorem FreeList.not_push (h : s.FreeList l) (hp : p ∈ l) : ¬(s.pushFree p).Listed := by
  rintro ⟨l', hl', -⟩
  simp only [FreeList, link_pushFree] at hl'
  exact Linked.Chain.not_push_mem h hp hl'

theorem FreeList.zeroPage (h : s.FreeList l) : (s.zeroPage q).FreeList l :=
  h

end Kernel

-- `page_alloc` takes the first page off the list.
theorem pageAlloc_list (h : s.FreeList l) :
    wp (pageAlloc zero) (fun r s' => r = l.head? ∧ s'.FreeList l.tail ∧ ∀ p, (s'.pages p).ref = (s.pages p).ref)
      (fun e _ => e = .panic) s := by
  cases l
  case nil => exact wp_of_ok (pageAlloc_none h) ⟨rfl, h, fun _ => rfl⟩
  case cons p l =>
    have hp : s.pageFreeList = some p := h.1
    cases zero
    case false => exact wp_of_ok (pageAlloc_some hp) ⟨rfl, h.pop, fun _ => ref_popFree⟩
    case true =>
      by_cases hb : p.toNat < s.npages
      case pos => exact wp_of_ok (pageAlloc_zero hp hb) ⟨rfl, h.pop.zeroPage, fun _ => ref_popFree⟩
      case neg =>
        -- `KADDR` does not know the page.
        have hk : (kaddr (page2pa p)).run (s.popFree p) = .error .panic (s.popFree p) := by
          have hn : (s.popFree p).npages ≤ p.toNat := Nat.not_lt.mp hb
          simp [kaddr, pgnum_page2pa, hn]
        have hr : (pageAlloc true).run s = .error .panic (s.popFree p) := by simp [pageAlloc, hp, hk]
        exact wp_of_error hr rfl

-- `page_free` panics on all pages of the list but the last.
theorem pageFree_list (h : s.FreeList l) (hr : (s.pages p).ref = 0#16) (hn : ¬s.LastFree p) :
    wp (pageFree p) (fun _ s' => p ∉ l ∧ s'.FreeList (p :: l) ∧ ∀ q, (s'.pages q).ref = (s.pages q).ref)
      (fun e _ => e = .panic) s := by
  rw [h.lastFree_iff, not_and] at hn
  by_cases hl : (s.pages p).link = none
  case pos =>
    have hp : p ∉ l := fun hp => hn hp hl
    exact wp_of_ok (pageFree_run hl hr) ⟨hp, h.push hp, fun _ => ref_pushFree⟩
  case neg =>
    have hp : (pageFree p).run s = .error .panic s := by simp [pageFree, hl]
    exact wp_of_error hp rfl

theorem pageFree_last (h : s.LastFree p) (hr : (s.pages p).ref = 0#16) :
    (pageFree p).run s = .ok () (s.pushFree p) ∧ ¬(s.pushFree p).Listed := by
  obtain ⟨l, hl⟩ := h
  have ⟨hm, hn⟩ := hl.lastFree_iff.mp ⟨l, hl⟩
  exact ⟨pageFree_run hn hr, hl.not_push hm⟩

-- Calls of `page_alloc`, with the page they return, and of `page_free`.
inductive PageCall
  | alloc (p : Option Ppn)
  | free (p : Ppn)
  deriving DecidableEq

-- A call that returns. `page_free` is given pages without references, which `ok` may restrict further.
inductive PageCall.Step (ok : Kernel → Ppn → Prop) (s : Kernel) : PageCall → Kernel → Prop
  | alloc {zero : Bool} {r : Option Ppn} {s' : Kernel} (hr : (pageAlloc zero).run s = .ok r s') :
    Step ok s (.alloc r) s'
  | free {p : Ppn} {s' : Kernel} (hz : (s.pages p).ref = 0#16) (ho : ok s p) (hr : (pageFree p).run s = .ok () s') :
    Step ok s (.free p) s'

inductive PageCall.Run (ok : Kernel → Ppn → Prop) : Kernel → List PageCall → Kernel → Prop
  | nil {s : Kernel} : Run ok s [] s
  | cons {s s₁ s₂ : Kernel} {k : PageCall} {ks : List PageCall} (hs : Step ok s k s₁) (hr : Run ok s₁ ks s₂) :
    Run ok s (k :: ks) s₂

namespace PageCall

variable {ok : Kernel → Ppn → Prop} {k : PageCall} {ks ks' : List PageCall}

-- The page is not the last of the list.
abbrev NotLast (s : Kernel) (p : Ppn) : Prop :=
  ¬s.LastFree p

theorem Run.split (h : Run ok s (ks ++ ks') s') : ∃ s₁, Run ok s ks s₁ ∧ Run ok s₁ ks' s' := by
  induction ks generalizing s
  case nil => exact ⟨s, .nil, h⟩
  case cons k ks ih =>
    cases h
    case cons hs hr =>
      obtain ⟨s₁, h₁, h₂⟩ := ih hr
      exact ⟨s₁, .cons hs h₁, h₂⟩

theorem Step.list (hs : Step NotLast s k s') (h : s.FreeList l) :
    (k = .alloc l.head? ∧ s'.FreeList l.tail) ∨ ∃ p, k = .free p ∧ s'.FreeList (p :: l) := by
  cases hs
  case alloc hr =>
    obtain ⟨rfl, hl, -⟩ := wp_ok (pageAlloc_list h) hr
    exact .inl ⟨rfl, hl⟩
  case free p hz ho hr =>
    obtain ⟨-, hl, -⟩ := wp_ok (pageFree_list h hz ho) hr
    exact .inr ⟨p, rfl, hl⟩

theorem Run.listed (hr : Run NotLast s ks s') (h : s.Listed) : s'.Listed := by
  induction hr
  case nil => exact h
  case cons hs _ ih =>
    obtain ⟨l, hl, -⟩ := h
    obtain ⟨-, hl'⟩ | ⟨p, -, hl'⟩ := hs.list hl
    case inl => exact ih hl'.listed
    case inr => exact ih hl'.listed

-- A page gets on the list by `page_free` only.
theorem Step.not_onList (hs : Step NotLast s k s') (h : s.Listed) (hk : k ≠ .free p) (hp : ¬s.OnList p) :
    ¬s'.OnList p := by
  obtain ⟨l, hl, -⟩ := h
  rw [hl.onList_iff] at hp
  obtain ⟨-, hl'⟩ | ⟨q, rfl, hl'⟩ := hs.list hl
  case inl =>
    rw [hl'.onList_iff]
    exact fun hm => hp (List.mem_of_mem_tail hm)
  case inr =>
    rw [hl'.onList_iff, List.mem_cons, not_or]
    exact ⟨fun he => hk (by rw [he]), hp⟩

theorem Run.not_onList (hr : Run NotLast s ks s') (h : s.Listed) (hk : .free p ∉ ks) (hp : ¬s.OnList p) :
    ¬s'.OnList p := by
  induction hr
  case nil => exact hp
  case cons hs _ ih =>
    simp only [List.mem_cons, not_or] at hk
    refine ih (Run.listed (.cons hs .nil) h) hk.2 (hs.not_onList h (Ne.symm hk.1) hp)

-- The page that `page_alloc` returns was on the list, and is not any longer.
theorem Step.handed (hs : Step NotLast s (.alloc (some p)) s') (h : s.Listed) : s.OnList p ∧ ¬s'.OnList p := by
  obtain ⟨l, hl, hn⟩ := h
  obtain ⟨he, hl'⟩ | ⟨q, he, -⟩ := hs.list hl
  case inl =>
    cases l
    case nil => simp at he
    case cons q l =>
      simp only [List.head?_cons, alloc.injEq, Option.some.injEq] at he
      subst he
      rw [hl.onList_iff, hl'.onList_iff]
      exact ⟨by simp, (List.nodup_cons.mp hn).1⟩
  case inr => cases he

end PageCall

-- In every run in which `page_free` is never given the last page of the list, all calls panic or leave the list in
-- order, and no page is handed out twice without having been freed in between. The last page is not noticed.
theorem double_free_detected {ks : List PageCall} (h : s.Listed) (hr : PageCall.Run PageCall.NotLast s ks s') :
    s'.Listed ∧
    (∀ zero, wp (pageAlloc zero) (fun _ => Listed) (fun e _ => e = .panic) s') ∧
    (∀ p, (s'.pages p).ref = 0#16 →
      (wp (pageFree p) (fun _ => Listed) (fun e _ => e = .panic) s' ↔ ¬s'.LastFree p)) ∧
    ∀ p ks₁ ks₂ ks₃, ks = ks₁ ++ .alloc (some p) :: (ks₂ ++ .alloc (some p) :: ks₃) → .free p ∈ ks₂ := by
  have h' := hr.listed h
  refine ⟨h', fun zero => ?_, fun p hz => ⟨fun hw hl => ?_, fun hl => ?_⟩, fun p ks₁ ks₂ ks₃ he => ?_⟩
  case refine_1 =>
    obtain ⟨l, hl, -⟩ := h'
    exact wp_mono (pageAlloc_list hl) (fun _ _ hs => hs.2.1.listed) fun _ _ => id
  case refine_2 =>
    obtain ⟨hf, hn⟩ := pageFree_last hl hz
    exact hn (wp_ok hw hf)
  case refine_3 =>
    obtain ⟨l, hl', -⟩ := h'
    exact wp_mono (pageFree_list hl' hz hl) (fun _ _ hs => hs.2.1.listed) fun _ _ => id
  case refine_4 =>
    subst he
    obtain ⟨s₁, hr₁, hr₂⟩ := hr.split
    cases hr₂
    case cons s₂ hs₂ hr₂ =>
      obtain ⟨s₃, hr₃, hr₄⟩ := hr₂.split
      cases hr₄
      case cons hs₄ hr₄ =>
        have h₁ := hr₁.listed h
        have h₂ : s₂.Listed := PageCall.Run.listed (.cons hs₂ .nil) h₁
        by_contra hn
        exact hr₃.not_onList h₂ hn (hs₂.handed h₁).2 (hs₄.handed (hr₃.listed h₂)).1

-- On a machine with two free pages, the first one is handed out and given back.
theorem double_free_detected_two :
    ∃ s, PageCall.Run PageCall.NotLast (freshKernel 2) [.alloc (some 1#20), .free 1#20] s ∧ s.Listed := by
  have hl : (freshKernel 2).FreeList [1#20, 2#20] := by decide
  have hl' : ((freshKernel 2).popFree 1#20).FreeList [2#20] := by decide
  have ha : (pageAlloc false).run (freshKernel 2) = .ok (some 1#20) ((freshKernel 2).popFree 1#20) :=
    pageAlloc_some rfl
  have hn : ¬((freshKernel 2).popFree 1#20).LastFree 1#20 := by
    rw [hl'.lastFree_iff]
    simp
  have hf : (pageFree 1#20).run ((freshKernel 2).popFree 1#20) = .ok () (((freshKernel 2).popFree 1#20).pushFree 1#20) :=
    pageFree_run (by decide) (by decide)
  have hr : PageCall.Run PageCall.NotLast (freshKernel 2) [.alloc (some 1#20), .free 1#20] _ :=
    .cons (.alloc ha) (.cons (.free (by decide) hn hf) .nil)
  exact ⟨_, hr, (double_free_detected hl.listed hr).1⟩

-- The page 2 is the last one. Freeing it again makes a circle of the list, and it is handed out twice.
theorem double_free_missed :
    (freshKernel 2).Listed ∧ ¬((freshKernel 2).pushFree 2#20).Listed ∧
    ∃ s, PageCall.Run (fun _ _ => True) (freshKernel 2)
      [.free 2#20, .alloc (some 2#20), .alloc (some 1#20), .alloc (some 2#20)] s := by
  have hl : (freshKernel 2).FreeList [1#20, 2#20] := by decide
  have hf := pageFree_last (s := freshKernel 2) ⟨[1#20], hl⟩ rfl
  have h₁ := pageAlloc_some (s := (freshKernel 2).pushFree 2#20) (p := 2#20) rfl
  have h₂ := pageAlloc_some (s := ((freshKernel 2).pushFree 2#20).popFree 2#20) (p := 1#20) (by decide)
  have h₃ := pageAlloc_some (s := (((freshKernel 2).pushFree 2#20).popFree 2#20).popFree 1#20) (p := 2#20)
    (by decide)
  exact ⟨hl.listed, hf.2, _, .cons (.free rfl trivial hf.1) <| .cons (.alloc h₁) <| .cons (.alloc h₂) <|
    .cons (.alloc h₃) .nil⟩

end Jos
