import Jos.Kernel.Console
import Jos.Kernel.Cons
import Jos.Library.RingBuffer
import Mathlib.Data.List.Induction
import Jos.Library.Program

-- The characters that come out of the console input ring are those that have been put into it.

open Function

namespace Jos

variable {k k' : Cons} {b : RingBuffer 512 (BitVec 8)} {c : Word} {ch : BitVec 8} {cs : List (BitVec 8)} {x : Bool}
  {F : List (BitVec 8)} {n : Nat}

-- The array is the ring `b`, and both positions are in the array.
structure Cons.Simulates (k : Cons) (b : RingBuffer 512 (BitVec 8)) : Prop where
  rpos : k.rpos.toNat = b.rpos
  wpos : k.wpos.toNat = b.wpos
  buf  : ∀ i : Fin 512, k.buf (BitVec.ofNat 32 i) = b.buf i

-- What a device returns.
def feed (cs : List (BitVec 8)) : List Word :=
  cs.map (·.setWidth 32)

-- The characters that are kept.
def kept (cs : List (BitVec 8)) : List (BitVec 8) :=
  cs.filter (· ≠ 0#8)

theorem setWidth_eq_zero : ch.setWidth 32 = 0#32 ↔ ch = 0#8 := by
  constructor
  case mp =>
    intro h
    have hn := congrArg BitVec.toNat h
    have hlt := ch.isLt
    rw [BitVec.toNat_setWidth, BitVec.toNat_ofNat] at hn
    apply BitVec.eq_of_toNat_eq
    rw [BitVec.toNat_ofNat]
    omega
  case mpr =>
    rintro rfl
    rfl

-- A position that is increased, and set to zero at the end of the array.
theorem position_next {p : Word} {i : Fin 512} (h : p.toNat = i) :
    (if p + 1#32 = 512#32 then 0#32 else p + 1#32).toNat = (i + 1 : Fin 512) := by
  have hi := i.isLt
  have hp : (p + 1#32).toNat = i.val + 1 := by
    rw [BitVec.toNat_add, h]
    simp only [BitVec.toNat_ofNat]
    omega
  have hf : (i + 1 : Fin 512).val = (i.val + 1) % 512 := Fin.val_add _ _
  by_cases he : p + 1#32 = 512#32
  case pos =>
    have h512 : i.val + 1 = 512 := hp.symm.trans (congrArg BitVec.toNat he)
    rw [if_pos he, hf, h512]
    rfl
  case neg =>
    have hne : i.val + 1 ≠ 512 := fun h512 => he (BitVec.eq_of_toNat_eq (hp.trans h512))
    rw [if_neg he, hp, hf, Nat.mod_eq_of_lt (by omega)]

theorem setWidth_setWidth : (ch.setWidth 32).setWidth 8 = ch := by
  ext j hj
  simp

theorem Cons.put_eq : k.put c =
    { buf  := update k.buf k.wpos (c.setWidth 8)
      rpos := k.rpos
      wpos := if k.wpos + 1#32 = 512#32 then 0#32 else k.wpos + 1#32 } := by
  simp only [Cons.put]
  split <;> rfl

namespace Cons.Simulates

theorem put (h : k.Simulates b) : (k.put (ch.setWidth 32)).Simulates (b.put ch) := by
  rw [put_eq, setWidth_setWidth]
  refine ⟨h.rpos, position_next h.wpos, fun i => ?_⟩
  have hi := i.isLt
  have hwi : k.wpos = BitVec.ofNat 32 i ↔ b.wpos = i := by
    rw [← BitVec.toNat_inj, h.wpos, BitVec.toNat_ofNat, Nat.mod_eq_of_lt (by omega), Fin.val_inj]
  by_cases hb : b.wpos = i
  case pos => simp only [RingBuffer.put, hwi.mpr hb, hb, update_self]
  case neg =>
    simp only [RingBuffer.put, update_of_ne (Ne.symm (mt hwi.mp hb)), update_of_ne (Ne.symm hb)]
    exact h.buf i

theorem intr (h : k.Simulates b) : (k.intr (feed cs)).Simulates (b.putAll (kept cs)) := by
  induction cs generalizing k b
  case nil => exact h
  case cons ch cs ih =>
    change (if ch.setWidth 32 = 0#32 then k.intr (feed cs) else (k.put (ch.setWidth 32)).intr (feed cs)).Simulates _
    by_cases hc : ch = 0#8
    case pos =>
      rw [if_pos (setWidth_eq_zero.mpr hc), kept, List.filter_cons_of_neg (by simpa using hc)]
      exact ih h
    case neg =>
      rw [if_neg (mt setWidth_eq_zero.mp hc), kept, List.filter_cons_of_pos (by simpa using hc)]
      exact ih h.put

variable (x) in
theorem poll (serial kbd : List (BitVec 8)) (h : k.Simulates b) :
    ((k.serialIntr x (feed serial)).kbdIntr (feed kbd)).Simulates
      (b.putAll (kept ((if x then serial else []) ++ kbd))) := by
  rw [kept, List.filter_append, RingBuffer.putAll, List.foldl_append]
  refine intr ?_
  cases x
  case false => exact h
  case true => exact h.intr

-- Reading a character does the same to the ring.
theorem pos_ne (h : k.Simulates b) : k.rpos ≠ k.wpos ↔ b.rpos ≠ b.wpos := by
  rw [Ne, ← BitVec.toNat_inj, h.rpos, h.wpos, Fin.val_inj]

theorem byte (h : k.Simulates b) : k.buf k.rpos = b.buf b.rpos := by
  rw [← h.buf]
  congr 1
  apply BitVec.eq_of_toNat_eq
  have := b.rpos.isLt
  rw [h.rpos, BitVec.toNat_ofNat, Nat.mod_eq_of_lt (by omega)]

theorem getc_none {serial kbd : List Word} (h : ((k.serialIntr x serial).kbdIntr kbd).Simulates b) (hb : b.get = none) :
    k.getc x serial kbd = (0#32, (k.serialIntr x serial).kbdIntr kbd) := by
  have he : b.rpos = b.wpos := by
    by_contra hne
    simp [RingBuffer.get, hne] at hb
  have hn : ¬((k.serialIntr x serial).kbdIntr kbd).rpos ≠ ((k.serialIntr x serial).kbdIntr kbd).wpos :=
    mt h.pos_ne.mp (not_not.mpr he)
  exact if_neg hn

theorem getc_some {serial kbd : List Word} {b' : RingBuffer 512 (BitVec 8)}
    (h : ((k.serialIntr x serial).kbdIntr kbd).Simulates b) (hb : b.get = some (ch, b')) :
    ∃ k', k.getc x serial kbd = (ch.setWidth 32, k') ∧ k'.Simulates b' := by
  have hne : b.rpos ≠ b.wpos := by
    intro he
    simp [RingBuffer.get, he] at hb
  rw [RingBuffer.get, if_neg hne] at hb
  cases hb
  have hr := position_next h.rpos
  refine ⟨{ (k.serialIntr x serial).kbdIntr kbd with
      rpos := if ((k.serialIntr x serial).kbdIntr kbd).rpos + 1#32 = 512#32 then 0#32
        else ((k.serialIntr x serial).kbdIntr kbd).rpos + 1#32 }, ?_, hr, h.wpos, h.buf⟩
  rw [getc]
  simp only
  rw [if_pos (h.pos_ne.mpr hne), h.byte]
  split <;> rfl

end Cons.Simulates

-- A device interrupt, and a call of `cons_getc` together with what the devices have for it.
inductive ConsEvent
  | intr (cs : List (BitVec 8))
  | getc (serial kbd : List (BitVec 8))

namespace Cons

-- Nothing has been read or written yet.
def zero : Cons :=
  { buf := fun _ => 0#8, rpos := 0#32, wpos := 0#32 }

variable (x : Bool)

-- The characters fed into the ring.
def fed : ConsEvent → List (BitVec 8)
  | .intr cs         => kept cs
  | .getc serial kbd => kept ((if x then serial else []) ++ kbd)

def fedAll (es : List ConsEvent) : List (BitVec 8) :=
  es.flatMap (fed x)

-- The state after an event, and what is returned.
def step (k : Cons) : ConsEvent → Cons × List Word
  | .intr cs         => (k.intr (feed cs), [])
  | .getc serial kbd => ((k.getc x (feed serial) (feed kbd)).2, [(k.getc x (feed serial) (feed kbd)).1])

def run (es : List ConsEvent) : Cons × List Word :=
  es.foldl (fun s e => ((s.1.step x e).1, s.2 ++ (s.1.step x e).2)) (zero, [])

-- The characters that have been returned. Zero stands for no character.
def returned (es : List ConsEvent) : List Word :=
  (run x es).2.filter (· ≠ 0#32)

-- The number of characters that have been fed in but not returned is never greater than `CONSBUFSIZE - 1`.
def NeverFull (es : List ConsEvent) : Prop :=
  ∀ p e, p ++ [e] <+: es → (fedAll x (p ++ [e])).length ≤ (returned x p).length + 511

variable {es : List ConsEvent} {e : ConsEvent}

theorem run_snoc : run x (es ++ [e]) =
    (((run x es).1.step x e).1, (run x es).2 ++ ((run x es).1.step x e).2) := by
  rw [run, List.foldl_append]
  rfl

theorem fedAll_snoc : fedAll x (es ++ [e]) = fedAll x es ++ fed x e := by
  simp [fedAll]

-- The ring holds the part from `n` on of the sequence `F` that has been fed in.
def Keeps (k : Cons) (F : List (BitVec 8)) (n : Nat) : Prop :=
  ∃ b, k.Simulates b ∧ b.Holds F n

variable {x} {l : List (BitVec 8)} {w : Word}

theorem returned_snoc :
    returned x (es ++ [e]) = returned x es ++ ((run x es).1.step x e).2.filter (· ≠ 0#32) := by
  rw [returned, run_snoc, List.filter_append, returned]

theorem ne_zero_of_mem_fedAll (h : ch ∈ fedAll x es) : ch ≠ 0#8 := by
  obtain ⟨e, -, he⟩ := List.mem_flatMap.mp h
  cases e
  all_goals
    have hk := (List.mem_filter.mp he).2
    simpa using hk

theorem NeverFull.init (h : NeverFull x (es ++ [e])) : NeverFull x es :=
  fun p a hp => h p a (hp.trans (List.prefix_append _ _))

theorem length_feed_take (h : n ≤ F.length) : (feed (F.take n)).length = n := by
  rw [feed, List.length_map, List.length_take]
  omega

-- What has been read before goes on being in front of the position, since that only moves forward.
theorem feed_take_sublist {n' : Nat} (h : n ≤ n') (hn : n ≤ F.length) :
    (feed (F.take n)).Sublist (feed ((F ++ l).take n')) := by
  refine List.Sublist.map _ ?_
  have hs : F.take n = (F ++ l).take n := by rw [List.take_append_of_le_length hn]
  rw [hs]
  exact (List.take_prefix_take_left h).sublist

variable (x) in
-- The ring is polled, and the next character is taken if there is one.
theorem Keeps.getc (serial kbd : List (BitVec 8)) (h : Keeps k F n) :
    ∃ n', n ≤ n' ∧ ((F ++ fed x (.getc serial kbd)).length < n + 512 → n' = n) ∧
      (n' = (F ++ fed x (.getc serial kbd)).length ∧ (k.getc x (Jos.feed serial) (Jos.feed kbd)).1 = 0#32 ∧
          Keeps (k.getc x (Jos.feed serial) (Jos.feed kbd)).2 (F ++ fed x (.getc serial kbd)) n' ∨
        ∃ hn : n' < (F ++ fed x (.getc serial kbd)).length,
          (k.getc x (Jos.feed serial) (Jos.feed kbd)).1 = ((F ++ fed x (.getc serial kbd))[n']).setWidth 32 ∧
          Keeps (k.getc x (Jos.feed serial) (Jos.feed kbd)).2 (F ++ fed x (.getc serial kbd)) (n' + 1)) := by
  obtain ⟨b, hs, hb⟩ := h
  obtain ⟨n', hb', hle, heq⟩ := hb.putAll (fed x (.getc serial kbd))
  have hs' := hs.poll x serial kbd
  refine ⟨n', hle, heq, ?_⟩
  by_cases hn : n' < (F ++ fed x (.getc serial kbd)).length
  case pos =>
    obtain ⟨b', hg, hh⟩ := hb'.get hn
    obtain ⟨k', hk, hk'⟩ := hs'.getc_some hg
    rw [hk]
    exact .inr ⟨hn, rfl, b', hk', hh⟩
  case neg =>
    have he := hb'.le
    obtain rfl : n' = (F ++ fed x (.getc serial kbd)).length := by omega
    rw [hs'.getc_none (hb'.get_eq_none.mpr rfl)]
    exact .inl ⟨rfl, rfl, _, hs', hb'⟩

variable (cs) in
theorem Keeps.intr (h : Keeps k F n) : ∃ n', n ≤ n' ∧ ((F ++ kept cs).length < n + 512 → n' = n) ∧
    Keeps (k.intr (Jos.feed cs)) (F ++ kept cs) n' := by
  obtain ⟨b, hs, hb⟩ := h
  obtain ⟨n', hb', hle, heq⟩ := hb.putAll (kept cs)
  exact ⟨n', hle, heq, _, hs.intr, hb'⟩

-- The position up to which the characters have been read or lost.
structure Read (x : Bool) (es : List ConsEvent) (n : Nat) : Prop where
  keeps : Keeps (run x es).1 (fedAll x es) n
  le    : n ≤ (fedAll x es).length
  sub   : (returned x es).Sublist (feed ((fedAll x es).take n))
  eq    : NeverFull x es → returned x es = feed ((fedAll x es).take n)

namespace Read

theorem nil : Read x [] 0 := by
  refine ⟨⟨{ buf := fun _ => 0#8, rpos := 0, wpos := 0 }, ⟨rfl, rfl, fun _ => rfl⟩, ?_⟩, Nat.le_refl 0, .refl _,
    fun _ => rfl⟩
  exact ⟨rfl, rfl, Nat.le_refl 0, show 0 < 0 + 512 by decide, fun hi => absurd hi (Nat.not_lt_zero _)⟩

-- Below the capacity nothing is lost when the ring is filled.
theorem not_lost (h : Read x es n) (hf : NeverFull x (es ++ [e])) : (fedAll x (es ++ [e])).length < n + 512 := by
  have hlen := hf es e (List.prefix_refl _)
  rw [h.eq hf.init, length_feed_take h.le] at hlen
  omega

section Fed

variable {n' : Nat} (h : Read x es n) (hle : n ≤ n')

include h hle in
-- What has been read before is in front of the new position.
theorem sub_take : (returned x es).Sublist (feed ((fedAll x (es ++ [e])).take n')) := by
  rw [fedAll_snoc]
  exact h.sub.trans (feed_take_sublist hle h.le)

include h in
-- The position stays where it is unless characters are lost.
theorem eq_take (heq : (fedAll x es ++ fed x e).length < n + 512 → n' = n) (hf : NeverFull x (es ++ [e])) :
    returned x es = feed ((fedAll x (es ++ [e])).take n') := by
  have hlt := h.not_lost hf
  rw [fedAll_snoc] at hlt ⊢
  obtain rfl := heq hlt
  rw [h.eq hf.init, List.take_append_of_le_length h.le]

end Fed

theorem intr (h : Read x es n) : ∃ n', Read x (es ++ [.intr cs]) n' := by
  have hret : returned x (es ++ [.intr cs]) = returned x es := by
    rw [returned_snoc]
    simp [step]
  obtain ⟨n', hle, heq, hk⟩ := h.keeps.intr cs
  have hfed : fedAll x (es ++ [.intr cs]) = fedAll x es ++ kept cs := fedAll_snoc x
  have hlen : (fedAll x es ++ kept cs).length = (fedAll x es).length + (kept cs).length := List.length_append
  have hn' : n' ≤ (fedAll x es ++ kept cs).length := by
    obtain ⟨b, -, hb⟩ := hk
    exact hb.le
  refine ⟨n', ⟨?_, by rw [hfed]; exact hn', ?_, fun hf => ?_⟩⟩
  case refine_1 =>
    rw [run_snoc, hfed]
    exact hk
  case refine_2 =>
    rw [hret]
    exact h.sub_take hle
  case refine_3 =>
    rw [hret]
    exact h.eq_take heq hf

theorem getc {serial kbd : List (BitVec 8)} (h : Read x es n) : ∃ n', Read x (es ++ [.getc serial kbd]) n' := by
  obtain ⟨n', hle, heq, hk⟩ := h.keeps.getc x serial kbd
  have hfed : fedAll x (es ++ [.getc serial kbd]) = fedAll x es ++ fed x (.getc serial kbd) := fedAll_snoc x
  rcases hk with ⟨hn', hc, hk⟩ | ⟨hn', hc, hk⟩
  case inl =>
    have hret : returned x (es ++ [.getc serial kbd]) = returned x es := by
      rw [returned_snoc, step, hc]
      simp
    refine ⟨n', ⟨?_, by rw [hfed]; exact hn'.le, ?_, fun hf => ?_⟩⟩
    case refine_1 =>
      rw [run_snoc, hfed]
      exact hk
    case refine_2 =>
      rw [hret]
      exact h.sub_take hle
    case refine_3 =>
      rw [hret]
      exact h.eq_take heq hf
  case inr =>
    have hne : ((fedAll x es ++ fed x (.getc serial kbd))[n']).setWidth 32 ≠ 0#32 := by
      refine mt setWidth_eq_zero.mp (@ne_zero_of_mem_fedAll _ x (es ++ [.getc serial kbd]) ?_)
      rw [hfed]
      exact List.getElem_mem hn'
    have hret : returned x (es ++ [.getc serial kbd]) =
        returned x es ++ [((fedAll x es ++ fed x (.getc serial kbd))[n']).setWidth 32] := by
      rw [returned_snoc, step, hc]
      simp [hne]
    have htake : Jos.feed ((fedAll x (es ++ [.getc serial kbd])).take (n' + 1)) =
        Jos.feed ((fedAll x (es ++ [.getc serial kbd])).take n') ++
          [((fedAll x es ++ fed x (.getc serial kbd))[n']).setWidth 32] := by
      rw [hfed, List.take_succ_eq_append_getElem hn', Jos.feed, List.map_append]
      rfl
    refine ⟨n' + 1, ⟨?_, by rw [hfed]; exact hn', ?_, fun hf => ?_⟩⟩
    case refine_1 =>
      rw [run_snoc, hfed]
      exact hk
    case refine_2 =>
      rw [hret, htake]
      exact (h.sub_take hle).append (.refl _)
    case refine_3 => rw [hret, htake, h.eq_take heq hf]

-- Zero is only returned if everything has been returned.
theorem getc_zero {serial kbd : List (BitVec 8)} (h : Read x es n) (hf : NeverFull x (es ++ [.getc serial kbd]))
    (hz : ((run x es).1.step x (.getc serial kbd)).2 = [0#32]) :
    returned x (es ++ [.getc serial kbd]) = Jos.feed (fedAll x (es ++ [.getc serial kbd])) := by
  obtain ⟨n', -, heq, hk⟩ := h.keeps.getc x serial kbd
  have hfed : fedAll x (es ++ [.getc serial kbd]) = fedAll x es ++ fed x (.getc serial kbd) := fedAll_snoc x
  have hlt := h.not_lost hf
  rw [hfed] at hlt ⊢
  obtain rfl := heq hlt
  rcases hk with ⟨hn', -, -⟩ | ⟨hn', hc, -⟩
  case inl =>
    rw [returned_snoc, hz, h.eq hf.init, ← List.take_append_of_le_length h.le, hn', List.take_length]
    exact List.append_nil _
  case inr =>
    have hch : ((fedAll x es ++ fed x (.getc serial kbd))[n']).setWidth 32 = 0#32 :=
      hc.symm.trans (List.head_eq_of_cons_eq hz)
    refine absurd (setWidth_eq_zero.mp hch) (@ne_zero_of_mem_fedAll _ x (es ++ [.getc serial kbd]) ?_)
    rw [hfed]
    exact List.getElem_mem hn'

-- By induction on the events, of which the last one is looked at.
theorem exists_read (x : Bool) (es : List ConsEvent) : ∃ n, Read x es n := by
  induction es using List.reverseRecOn
  case nil => exact ⟨0, nil⟩
  case append_singleton es e ih =>
    obtain ⟨n, h⟩ := ih
    cases e
    case intr cs => exact h.intr
    case getc serial kbd => exact h.getc

end Read

variable (x es) in
theorem cons_fifo :
    (run x es).1.rpos.toNat < 512 ∧ (run x es).1.wpos.toNat < 512 ∧
      (returned x es).Sublist (feed (fedAll x es)) ∧
      (NeverFull x es → returned x es <+: feed (fedAll x es) ∧
        ∀ p serial kbd, p ++ [.getc serial kbd] <+: es →
          ((run x p).1.step x (.getc serial kbd)).2 = [0#32] →
          returned x (p ++ [.getc serial kbd]) = feed (fedAll x (p ++ [.getc serial kbd]))) := by
  obtain ⟨n, h⟩ := Read.exists_read x es
  obtain ⟨b, hs, -⟩ := h.keeps
  refine ⟨?_, ?_, h.sub.trans ((List.take_sublist _ _).map _), fun hf => ⟨?_, fun p serial kbd hp hz => ?_⟩⟩
  case refine_1 =>
    rw [hs.rpos]
    exact b.rpos.isLt
  case refine_2 =>
    rw [hs.wpos]
    exact b.wpos.isLt
  case refine_3 =>
    rw [h.eq hf]
    exact (List.take_prefix _ _).map _
  case refine_4 =>
    obtain ⟨n', h'⟩ := Read.exists_read x p
    exact h'.getc_zero (fun q e hq => hf q e (hq.trans hp)) hz

-- Two characters are fed in, one of them by the call that returns the first.
theorem cons_fifo_two :
    returned true [.intr [0#8, 97#8], .getc [98#8] [], .getc [] [], .getc [] []] <+: [97#32, 98#32] := by
  have hfed : fedAll true [.intr [0#8, 97#8], .getc [98#8] [], .getc [] [], .getc [] []] = [97#8, 98#8] := by decide
  refine ((cons_fifo true [.intr [0#8, 97#8], .getc [98#8] [], .getc [] [], .getc [] []]).2.2.2 fun p e hp => ?_).1
  obtain ⟨t, ht⟩ := hp
  have hlen := congrArg List.length hfed
  rw [← ht, fedAll, List.flatMap_append, List.length_append] at hlen
  exact Nat.le_trans (Nat.le.intro hlen) (by simp)

end Cons

-- The ring of the kernel, whose positions wrap by their type.
def Console.ring (c : Console) : RingBuffer 512 (BitVec 8) :=
  { buf := c.buf, rpos := c.rpos, wpos := c.wpos }

namespace Console

variable {t : Console}

theorem ring_put : (t.put ch).ring = t.ring.putAll (kept [ch]) := by
  by_cases hc : ch = 0#8
  case pos => simp [Console.put, kept, hc, RingBuffer.putAll]
  case neg =>
    simp only [Console.put, kept, List.filter_cons, List.filter_nil, RingBuffer.putAll]
    simp [hc, ring, RingBuffer.put]

theorem ring_foldl : (cs.foldl Console.put t).ring = t.ring.putAll (kept cs) := by
  induction cs generalizing t
  case nil => rfl
  case cons ch cs ih =>
    have hk : kept (ch :: cs) = kept [ch] ++ kept cs := by
      rw [kept, kept, kept, ← List.filter_append, List.singleton_append]
    rw [List.foldl_cons, ih, ring_put, hk]
    simp only [RingBuffer.putAll, List.foldl_append]

variable (cs) in
theorem kbd_foldl : (cs.foldl Console.put t).kbd = t.kbd := by
  induction cs generalizing t
  case nil => rfl
  case cons ch cs ih =>
    rw [List.foldl_cons, ih, Console.put]
    split <;> rfl

theorem ring_poll : (kbdIntr (serialIntr t)).ring = t.ring.putAll (kept (t.serial ++ t.kbd)) := by
  have hs : (serialIntr t).ring = t.ring.putAll (kept t.serial) := ring_foldl
  have hk : (kbdIntr (serialIntr t)).ring = (serialIntr t).ring.putAll (kept t.kbd) := by
    rw [← kbd_foldl t.serial]
    exact ring_foldl
  rw [hk, hs, kept, kept, kept, List.filter_append]
  simp only [RingBuffer.putAll, List.foldl_append]

end Console

-- `cons_getc` does to the ring of the kernel what it does to the array with its two positions.
theorem consGetc_simulates {s : Kernel} (h : k.Simulates s.cons.ring) :
    ∃ s', consGetc.run s = .ok (k.getc true (feed s.cons.serial) (feed s.cons.kbd)).1 s' ∧
      (k.getc true (feed s.cons.serial) (feed s.cons.kbd)).2.Simulates s'.cons.ring := by
  have hp := h.poll true s.cons.serial s.cons.kbd
  rw [if_pos rfl, ← Console.ring_poll] at hp
  by_cases he : (kbdIntr (serialIntr s.cons)).rpos = (kbdIntr (serialIntr s.cons)).wpos
  case pos =>
    have hn : (kbdIntr (serialIntr s.cons)).ring.get = none := if_pos he
    rw [hp.getc_none hn]
    exact ⟨{ s with cons := kbdIntr (serialIntr s.cons) }, by simp [consGetc, he], hp⟩
  case neg =>
    have hn : (kbdIntr (serialIntr s.cons)).ring.get = some _ := if_neg he
    obtain ⟨k', hk, hk'⟩ := hp.getc_some hn
    rw [hk]
    refine ⟨{ s with cons := { kbdIntr (serialIntr s.cons) with rpos := (kbdIntr (serialIntr s.cons)).rpos + 1 } }, ?_,
      hk'⟩
    simp [consGetc, he, Console.ring]

end Jos
