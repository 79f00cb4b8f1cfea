import Jos.Kernel.Theorems.Stabs
import Mathlib.Data.Int.Range

-- What `debuginfo_eip` reads.

open Bisect

namespace Jos

variable {t kern : Tables} {user : Option Tables} {stabs : List Stab} {addr : Word} {i l r : Int} {n : Nat} {c : Byte}
variable {s : Stab} {p : StrPtr} {info : Eipdebuginfo} {file fn line : Span}

-- The built-in string, or one that starts in the string table and ends there.
inductive Inside (stabstr : List Byte) : StrPtr → Prop
  | unknown : Inside stabstr .unknown
  | stabstr {off k} : off ≤ k → stabstr[k]? = some 0#8 → Inside stabstr (.stabstr off)

theorem strfind_ok {s : List Byte} (h : 0#8 ∈ s) : ∃ n, strfind s c = .ok n := by
  induction s
  case nil => cases h
  case cons b s ih =>
    by_cases hb : b = 0#8 ∨ b = c
    case pos => exact ⟨0, if_pos hb⟩
    case neg =>
      have hs := (List.mem_cons.mp h).resolve_left fun hz => hb (.inl hz.symm)
      obtain ⟨n, hn⟩ := ih hs
      refine ⟨n + 1, (if_neg hb).trans ?_⟩
      rw [hn]
      rfl

namespace Tables

-- The check of the string table.
abbrev Valid (t : Tables) : Prop :=
  t.stabstr.getLast? = some 0#8

theorem string_inside (hv : t.Valid) (hp : Inside t.stabstr p) : Inside t.stabstr (t.string s p) := by
  rw [string]
  split_ifs with h
  case pos =>
    refine .stabstr (k := t.stabstr.length - 1) (by omega) ?_
    rw [← List.getLast?_eq_getElem?]
    exact hv
  case neg => exact hp

theorem namelen_ok (hp : Inside t.stabstr p) : ∃ n, t.namelen p = .ok n := by
  cases hp
  case unknown => exact ⟨9, rfl⟩
  case stabstr off k hk hz =>
    refine strfind_ok (List.mem_of_getElem? (i := k - off) ?_)
    rw [List.getElem?_drop, show off + (k - off) = k by omega]
    exact hz

theorem fileLoop_ok (hl : 0 ≤ l) (hr : r < t.stabs.length) (hn : (r - l + 1).toNat < n) :
    ∃ m ≤ r, t.fileLoop l n r = .ok m := by
  induction n generalizing r
  case zero => omega
  case succ n ih =>
    rw [fileLoop]
    split_ifs with hlt
    case pos => exact ⟨r, Int.le_refl r, rfl⟩
    case neg =>
      rw [readStab_ok (by omega) hr]
      simp only [bind, Except.bind]
      split_ifs
      case pos =>
        obtain ⟨m, hm, h⟩ := ih (r := r - 1) (by omega) (by omega)
        exact ⟨m, by omega, h⟩
      case neg => exact ⟨r, Int.le_refl r, rfl⟩

theorem nargLoop_ok (hl : 0 ≤ l) (hr : r ≤ t.stabs.length) (hn : (r - l).toNat < n) :
    ∃ k, t.nargLoop r n l = .ok k := by
  induction n generalizing l
  case zero => omega
  case succ n ih =>
    rw [nargLoop]
    split_ifs with hlt
    case neg => exact ⟨0, rfl⟩
    case pos =>
      rw [readStab_ok hl (by omega)]
      simp only [bind, Except.bind]
      split_ifs
      case neg => exact ⟨0, rfl⟩
      case pos =>
        obtain ⟨k, h⟩ := ih (l := l + 1) (by omega) (by omega)
        rw [h]
        exact ⟨k + 1, rfl⟩

variable (addr info file fn) in
theorem function_found (h : fn.left ≤ fn.right) (hl : 0 ≤ fn.left) (hr : fn.right < t.stabs.length) :
    t.function info file fn addr = .ok
      ({ info with
          eipFnName := t.string (stab t.stabs fn.left) info.eipFnName
          eipFnAddr := (stab t.stabs fn.left).value },
        addr - (stab t.stabs fn.left).value, fn) := by
  rw [function, if_pos h, readStab_ok hl (by omega)]
  rfl

variable (addr info file) in
theorem function_missed (h : fn.right < fn.left) :
    t.function info file fn addr = .ok ({ info with eipFnAddr := addr }, addr, file) :=
  if_neg (Int.not_le.mpr h)

variable (info file) in
theorem source_ok (hv : t.Valid) (hi : Inside t.stabstr info.eipFile) (hl : 0 ≤ i) (hr : i < t.stabs.length)
    (hfile : 0 ≤ file.left) (hfn : 0 ≤ fn.left) (hfn' : fn.right < t.stabs.length) :
    ∃ info', t.source info file fn i = .ok info' ∧ info'.eipLine = (stab t.stabs i).desc.toNat ∧
      Inside t.stabstr info'.eipFile ∧ info'.eipFnName = info.eipFnName := by
  obtain ⟨m, hm, hloop⟩ := t.fileLoop_ok hfile hr (Nat.lt_succ_self _)
  obtain ⟨k, hnarg⟩ := t.nargLoop_ok (l := fn.left + 1) (r := fn.right) (n := (fn.right - fn.left).toNat + 1) (by omega)
    (by omega) (by omega)
  rw [source, readStab_ok hl hr]
  simp only [bind, Except.bind, hloop, hnarg]
  by_cases hle : file.left ≤ m
  case pos =>
    rw [if_pos hle, readStab_ok (by omega) (by omega)]
    simp only [pure, Except.pure]
    split_ifs
    case pos => exact ⟨_, rfl, rfl, string_inside hv hi, rfl⟩
    case neg => exact ⟨_, rfl, rfl, string_inside hv hi, rfl⟩
  case neg =>
    rw [if_neg hle]
    simp only [pure, Except.pure]
    split_ifs
    case pos => exact ⟨_, rfl, rfl, hi, rfl⟩
    case neg => exact ⟨_, rfl, rfl, hi, rfl⟩

variable {info₁ : Eipdebuginfo} {addr₁ : Word} {range : Span}

-- What remains when the search for the line returns.
theorem search_eq (hv : t.Valid) (hfile : stabBinsearch t.stabs ⟨0, t.stabs.length - 1⟩ nSo addr = .ok file)
    (h0 : file.left ≠ 0) (hfn : stabBinsearch t.stabs file nFun addr = .ok fn)
    (hfun : t.function info file fn addr = .ok (info₁, addr₁, range)) (hlen : t.namelen info₁.eipFnName = .ok n)
    (hline : stabBinsearch t.stabs range nSline addr₁ = .ok line) :
    t.search info addr =
      if line.left = line.right then
        ((0, ·)) <$> t.source { info₁ with eipFnNamelen := n } file fn line.left
      else
        .ok (-1, { info₁ with eipFnNamelen := n }) := by
  rw [search, if_neg (not_not.mpr hv)]
  simp only [hfile, hfn, hfun, hlen, hline, h0, bind, Except.bind, if_false]
  split_ifs
  case pos => rfl
  case neg => rfl

end Tables

-- The search for the file goes to the left until it comes to the first entry, and that is behind the address. Or it is
-- for the greatest address, and finds it at the third entry. Then the second entry is taken for the file, the first one
-- for the function, and there is none for the line.
inductive Astray (t : Tables) (addr : Word) : Prop
  | file : Lost (2 ^ 32) (HasType t.stabs nSo) (value t.stabs) addr.toNat 0 (t.stabs.length - 1) → Astray t addr
  | line : HasType t.stabs nSline 0 → addr.toNat < 2 * value t.stabs 0 → HasType t.stabs nFun 1 →
    value t.stabs 1 = addr.toNat →
    Wraps (2 ^ 32) (HasType t.stabs nSo) (value t.stabs) addr.toNat 0 (t.stabs.length - 1) 2 → Astray t addr

-- It returns, so it has read entries only, and the strings in its result are good ones.
def Confined (stabstr : List Byte) (r : D (Int × Eipdebuginfo)) : Prop :=
  ∃ code info, r = .ok (code, info) ∧ Inside stabstr info.eipFile ∧ Inside stabstr info.eipFnName

namespace Tables

theorem search_astray (hv : t.Valid) (hp : Inside t.stabstr info.eipFnName) (h : Astray t addr) :
    t.search info addr = .error .stabs := by
  obtain ⟨file, hfile, hf⟩ := stabBinsearch_finds t.stabs nSo addr ⟨0, t.stabs.length - 1⟩
    (Int.le_refl 0) (Int.sub_lt_self _ Int.zero_lt_one)
  cases h
  case file hlost =>
    obtain rfl := hf.eq_of_lost (by decide) hlost
    rw [search, if_neg (not_not.mpr hv), hfile]
    rfl
  case line h0 hv0 h1 hv1 hw =>
    have hmax := hw.max
    have hfree : Free (HasType t.stabs nSo) 0 (2 - 1) := by
      intro i h₁ h₂ hi
      obtain rfl | rfl : i = 0 ∨ i = 1 := by omega
      case inl => exact absurd (h0.symm.trans hi) (by decide)
      case inr => exact absurd (h1.symm.trans hi) (by decide)
    obtain rfl := hf.eq_of_wraps (by decide) hfree hw
    have hlen : (2 : Int) ≤ t.stabs.length - 1 := hw.lost.le
    obtain ⟨fn, hfn, hn⟩ := stabBinsearch_finds t.stabs nFun addr ⟨2 - 1, 2 - 1⟩
      (by decide) (show (2 : Int) - 1 < _ by omega)
    have hlost : Lost (2 ^ 32) (HasType t.stabs nFun) (value t.stabs) addr.toNat 1 1 :=
      .first ⟨by decide, by decide, h1, fun i h₁ h₂ => by omega⟩ (.inr ⟨hv1, hmax⟩)
    obtain rfl := hn.eq_of_lost (by decide) hlost
    have hfun := t.function_found addr info ⟨2 - 1, 2 - 1⟩ ⟨2 - 1 - 1, 2 - 1 - 1⟩ (by decide) (by decide)
      (show (2 : Int) - 1 - 1 < _ by omega)
    obtain ⟨n, hnl⟩ := t.namelen_ok (string_inside (s := stab t.stabs 0) hv hp)
    obtain ⟨line, hline, hl⟩ := stabBinsearch_finds t.stabs nSline (addr - (stab t.stabs 0).value)
      ⟨2 - 1 - 1, 2 - 1 - 1⟩ (by decide) (show (2 : Int) - 1 - 1 < _ by omega)
    have hlost : Lost (2 ^ 32) (HasType t.stabs nSline) (value t.stabs) (addr - (stab t.stabs 0).value).toNat 0 0 := by
      refine .first ⟨by decide, by decide, h0, fun i h₁ h₂ => by omega⟩ (.inl ?_)
      have hle : value t.stabs 0 ≤ addr.toNat := by
        have := value_lt t.stabs 0
        omega
      rw [BitVec.toNat_sub_of_le (BitVec.le_def.mpr hle)]
      change addr.toNat - value t.stabs 0 < _
      omega
    obtain rfl := hl.eq_of_lost (by decide) hlost
    rw [t.search_eq hv hfile (by decide) hfn hfun hnl hline]
    rfl

variable (addr file) in
theorem function_ok (hv : t.Valid) (hi : Inside t.stabstr info.eipFile) (hp : Inside t.stabstr info.eipFnName)
    (hl : 0 ≤ fn.left) (hr : fn.right < t.stabs.length) :
    ∃ info₁ addr₁ range, t.function info file fn addr = .ok (info₁, addr₁, range) ∧ Inside t.stabstr info₁.eipFile ∧
      Inside t.stabstr info₁.eipFnName ∧
      (fn.left ≤ fn.right ∧ addr₁ = addr - (stab t.stabs fn.left).value ∧ range = fn ∨
        fn.right < fn.left ∧ addr₁ = addr ∧ range = file) := by
  by_cases h : fn.left ≤ fn.right
  case pos => exact ⟨_, _, _, function_found _ _ _ _ h hl hr, hi, string_inside hv hp, .inl ⟨h, rfl, rfl⟩⟩
  case neg =>
    have h' := Int.not_le.mp h
    exact ⟨_, _, _, function_missed _ _ _ h', hi, hp, .inr ⟨h', rfl, rfl⟩⟩

-- The line in front of the first entry is only looked for in a function which is in front of the file.
theorem astray_of_line (hf : Finds (2 ^ 32) (HasType t.stabs nSo) (value t.stabs) addr.toNat 0 (t.stabs.length - 1) file)
    (hn : Finds (2 ^ 32) (HasType t.stabs nFun) (value t.stabs) addr.toNat file.left file.right fn)
    (hfile : 1 ≤ file.left) (hfn : fn.left = 0)
    (hl : Lost (2 ^ 32) (HasType t.stabs nSline) (value t.stabs) (addr - (stab t.stabs 0).value).toNat 0 fn.right) :
    Astray t addr := by
  have hfile' : file.left = 1 := by
    rcases hn.bounds with ⟨_, rfl⟩ | hb
    case inl => exact absurd hfn (by simp only; omega)
    case inr => omega
  have hlost := hn.lost (value_lt t.stabs) (by omega)
  rw [hfile'] at hlost
  have h0 := hl.mem
  have h1 := hlost.mem
  have hfree : Free (HasType t.stabs nSo) 0 (2 - 1) := by
    intro i h₁ h₂ hi
    obtain rfl | rfl : i = 0 ∨ i = 1 := by omega
    case inl => exact absurd (h0.symm.trans hi) (by decide)
    case inr => exact absurd (h1.symm.trans hi) (by decide)
  have hw := hf.wraps (value_lt t.stabs) hfree (by decide) hfile'
  have hmax := hw.max
  have hv0 := value_lt t.stabs 0
  have hv1 : value t.stabs 1 = addr.toNat := by
    have := hlost.behind
    have := value_lt t.stabs 1
    omega
  refine .line h0 ?_ h1 hv1 hw
  have hsub : (addr - (stab t.stabs 0).value).toNat = addr.toNat - value t.stabs 0 :=
    BitVec.toNat_sub_of_le (BitVec.le_def.mpr (by change value t.stabs 0 ≤ _; omega))
  have := hl.behind
  omega

theorem search_confined (hi : Inside t.stabstr info.eipFile) (hp : Inside t.stabstr info.eipFnName)
    (h : t.Valid → ¬Astray t addr) : Confined t.stabstr (t.search info addr) := by
  by_cases hv : t.Valid
  case neg => exact ⟨-1, info, if_pos hv, hi, hp⟩
  case pos =>
    obtain ⟨file, hfile, hf⟩ := stabBinsearch_finds t.stabs nSo addr ⟨0, t.stabs.length - 1⟩
      (Int.le_refl 0) (Int.sub_lt_self _ Int.zero_lt_one)
    by_cases h0 : file.left = 0
    case pos =>
      refine ⟨-1, info, ?_, hi, hp⟩
      rw [search, if_neg (not_not.mpr hv), hfile]
      exact if_pos h0
    case neg =>
      have hb : 1 ≤ file.left ∧ file.left ≤ file.right ∧ file.right < t.stabs.length := by
        have hlost : file.left ≠ -1 := fun he => h hv (.file (hf.lost (value_lt t.stabs) he))
        rcases hf.bounds with ⟨_, rfl⟩ | hb
        case inl => exact absurd rfl h0
        case inr =>
          simp only at hb
          omega
      obtain ⟨fn, hfn, hn⟩ := stabBinsearch_finds t.stabs nFun addr file (by omega)
        hb.2.2
      have hbn : 0 ≤ fn.left ∧ fn.right < t.stabs.length := by
        rcases hn.bounds with ⟨_, rfl⟩ | hbn
        case inl =>
          simp only
          omega
        case inr => omega
      obtain ⟨info₁, addr₁, range, hfun, hi₁, hp₁, hrange⟩ := t.function_ok addr file hv hi hp hbn.1 hbn.2
      obtain ⟨n, hlen⟩ := namelen_ok hp₁
      have hbr : 0 ≤ range.left ∧ range.right < t.stabs.length := by
        rcases hrange with ⟨_, _, rfl⟩ | ⟨_, _, rfl⟩
        case inl => exact hbn
        case inr => omega
      obtain ⟨line, hline, hl⟩ := stabBinsearch_finds t.stabs nSline addr₁ range hbr.1 hbr.2
      rw [t.search_eq hv hfile h0 hfn hfun hlen hline]
      split_ifs with heq
      case neg => exact ⟨-1, _, rfl, hi₁, hp₁⟩
      case pos =>
        have hbl : 0 ≤ line.left ∧ line.left < t.stabs.length := by
          rcases hl.bounds with ⟨_, rfl⟩ | hbl
          case inl =>
            simp only at heq
            omega
          case inr =>
            refine ⟨Int.not_lt.mp fun hlt => h hv ?_, by omega⟩
            rcases hrange with ⟨_, rfl, rfl⟩ | ⟨_, _, rfl⟩
            case inl =>
              have hz : range.left = 0 := by omega
              have hlost := hl.lost (value_lt t.stabs) (by omega)
              rw [hz] at hlost
              exact astray_of_line hf hn hb.1 hz hlost
            case inr => omega
        obtain ⟨info₂, hs, -, hi₂, hp₂⟩ := t.source_ok { info₁ with eipFnNamelen := n } file hv hi₁ hbl.1 hbl.2
          (show 0 ≤ file.left by omega) hbn.1 hbn.2
        rw [hs]
        refine ⟨0, info₂, rfl, hi₂, ?_⟩
        rw [hp₂]
        exact hp₁

end Tables

-- The tables that are searched. There are none if those of the user program can not be read.
def given (kern : Tables) (user : Option Tables) (addr : Word) : Option Tables :=
  if addr ≥ ulim then some kern else user

theorem debuginfoEip_confined :
    Confined ((given kern user addr).elim [] Tables.stabstr) (debuginfoEip kern user addr) ↔
      ∀ t ∈ given kern user addr, t.Valid → ¬Astray t addr := by
  rw [debuginfoEip, ← given]
  cases given kern user addr
  case none => exact iff_of_true ⟨-1, _, rfl, .unknown, .unknown⟩ fun t ht => by cases ht
  case some t =>
    constructor
    case mp =>
      rintro ⟨code, info, h, -⟩ t' ht hv ha
      cases ht
      cases h.symm.trans (t.search_astray hv .unknown ha)
    case mpr => exact fun h => t.search_confined .unknown .unknown (h t rfl)

-- The only file begins behind the address, so the search for the function begins in front of the first entry.
theorem not_confined_behind :
    ¬Confined [0#8] (debuginfoEip ⟨[], []⟩ (some ⟨[⟨0#32, nSo, 0#16, 0x800020#32⟩], [0#8]⟩) 0x800000#32) := by
  rintro ⟨code, info, h, -⟩
  cases h

variable {a : Int}

-- The entries of the file around `addr`, in which the file is not the first entry.
structure File (stabs : List Stab) (addr : Word) (file : Span) : Prop where
  pos  : 0 < file.left
  last : LastLe (HasType stabs nSo) (value stabs) addr.toNat 0 (stabs.length - 1) file.left
  ends : Ends (HasType stabs nSo) file.left (stabs.length - 1) file.right

-- Where the line is to be found, and under which address: in the function around `addr`, or in the file if there is none.
inductive Range (stabs : List Stab) (addr : Word) (file : Span) : Span → Word → Prop
  | function {fn : Span} : LastLe (HasType stabs nFun) (value stabs) addr.toNat file.left file.right fn.left →
    Ends (HasType stabs nFun) fn.left file.right fn.right →
    Range stabs addr file fn (addr - (stab stabs fn.left).value)
  | file : (∀ i, file.left ≤ i → i ≤ file.right → HasType stabs nFun i → addr.toNat < value stabs i) →
    Range stabs addr file file addr

-- The searches return what they are meant to.
structure Searches (stabs : List Stab) (addr : Word) (file range : Span) (addr₁ : Word) : Prop where
  so    : ∀ g, stabBinsearch stabs ⟨0, stabs.length - 1⟩ nSo addr = .ok g →
    Documented stabs 0 (stabs.length - 1) nSo addr g
  fn    : ∀ g, stabBinsearch stabs file nFun addr = .ok g → Documented stabs file.left file.right nFun addr g
  sline : ∀ g, stabBinsearch stabs range nSline addr₁ = .ok g →
    Documented stabs range.left range.right nSline addr₁ g

theorem Documented.eq {type : Byte} {g : Span} (h : Documented stabs l r type addr g)
    (ha : LastLe (HasType stabs type) (value stabs) addr.toNat l r a) (hi : Ends (HasType stabs type) a r i) :
    g = ⟨a, i⟩ := by
  obtain ⟨hl, hr⟩ := h.found a ha
  rw [← hl, ← hr.unique hi]

theorem File.bounds (h : File stabs addr file) : 0 < file.left ∧ file.left ≤ file.right ∧ file.right < stabs.length := by
  have := h.pos
  have := h.ends.ge h.last.le
  have := h.ends.le
  omega

theorem Range.bounds (h : Range stabs addr file range addr₁) (hf : File stabs addr file) :
    0 < range.left ∧ range.right < stabs.length := by
  have hb := hf.bounds
  cases h
  case function ha he =>
    have := ha.ge
    have := he.le
    omega
  case file => omega

variable (info) in
-- The search for the line is made in the range for it.
theorem Tables.function_range (hv : t.Valid) (hi : Inside t.stabstr info.eipFile) (hp : Inside t.stabstr info.eipFnName)
    (hfile : File t.stabs addr file) (hrange : Range t.stabs addr file range addr₁)
    (hs : Searches t.stabs addr file range addr₁) :
    ∃ fn info₁, stabBinsearch t.stabs file nFun addr = .ok fn ∧ t.function info file fn addr = .ok (info₁, addr₁, range) ∧
      Inside t.stabstr info₁.eipFile ∧ Inside t.stabstr info₁.eipFnName ∧ 0 ≤ fn.left ∧ fn.right < t.stabs.length := by
  have hb := hfile.bounds
  obtain ⟨fn, hfn, hn⟩ := stabBinsearch_finds t.stabs nFun addr file (by omega)
    hb.2.2
  have hd := hs.fn fn hfn
  have hr := hrange.bounds hfile
  cases hrange
  case function ha he =>
    obtain rfl := hd.eq ha he
    have hle := he.ge ha.le
    exact ⟨_, _, hfn, function_found _ _ _ _ hle (Int.le_of_lt hr.1) hr.2, hi, string_inside hv hp,
      Int.le_of_lt hr.1, hr.2⟩
  case file hall =>
    have hlt := hd.missed hall
    refine ⟨_, _, hfn, function_missed _ _ _ hlt, hi, hp, ?_⟩
    rcases hn.bounds with ⟨-, rfl⟩ | hbn
    case inl =>
      simp only
      omega
    case inr => omega

-- The line is found if the next entry is for a line, too, or there is none.
theorem debuginfoEip_line (hu : addr ≥ ulim) (hfile : File kern.stabs addr file)
    (hrange : Range kern.stabs addr file range addr₁) (hs : Searches kern.stabs addr file range addr₁)
    (ha : LastLe (HasType kern.stabs nSline) (value kern.stabs) addr₁.toNat range.left range.right a) :
    (∃ info, debuginfoEip kern user addr = .ok (0, info) ∧ info.eipLine = (stab kern.stabs a).desc.toNat) ↔
      kern.Valid ∧ (a = range.right ∨ HasType kern.stabs nSline (a + 1)) := by
  rw [debuginfoEip, if_pos hu]
  by_cases hv : kern.Valid
  case neg =>
    refine iff_of_false ?_ fun h => hv h.1
    rintro ⟨info, h, -⟩
    cases (if_pos hv).symm.trans h
  case pos =>
    obtain ⟨g, hg, -⟩ := stabBinsearch_finds kern.stabs nSo addr ⟨0, kern.stabs.length - 1⟩
      (Int.le_refl 0) (Int.sub_lt_self _ Int.zero_lt_one)
    obtain rfl := (hs.so g hg).eq hfile.last hfile.ends
    have hb := hfile.bounds
    have hr := hrange.bounds hfile
    obtain ⟨fn, info₁, hfn, hfun, hi, hp, hl, hl'⟩ := Tables.function_range ⟨.unknown, 0, .unknown, 9, addr, 0⟩ hv
      .unknown .unknown hfile hrange hs
    obtain ⟨n, hlen⟩ := Tables.namelen_ok hp
    obtain ⟨line, hline, -⟩ := stabBinsearch_finds kern.stabs nSline addr₁ range (by omega) hr.2
    obtain ⟨hleft, hright⟩ := (hs.sline line hline).found a ha
    rw [and_iff_right hv, ← hright.eq_iff ha.le]
    have hsearch := kern.search_eq hv hg (Int.ne_of_gt hb.1) hfn hfun hlen hline
    change (∃ info, kern.search _ addr = _ ∧ _) ↔ _
    rw [hsearch, hleft]
    split_ifs with heq
    case neg =>
      refine iff_of_false ?_ heq
      rintro ⟨info, h, -⟩
      cases h
    case pos =>
      refine iff_of_true ?_ heq
      have hge := ha.ge
      have hle := ha.le
      obtain ⟨info₂, hsrc, hdesc, -⟩ := kern.source_ok { info₁ with eipFnNamelen := n } file (i := a) hv
        hi (by omega) (by omega) (by omega) hl hl'
      rw [hsrc]
      exact ⟨info₂, rfl, hdesc⟩

theorem Documented.of_eq {type : Byte} (ha : LastLe (HasType stabs type) (value stabs) addr.toNat l r a)
    (hi : Ends (HasType stabs type) a r i) (h : stabBinsearch stabs ⟨l, r⟩ type addr = .ok ⟨a, i⟩) :
    ∀ g, stabBinsearch stabs ⟨l, r⟩ type addr = .ok g → Documented stabs l r type addr g := by
  intro g hg
  obtain rfl := Except.ok.inj (h.symm.trans hg)
  exact (bracket_iff_of_lastLe ha).mpr ⟨rfl, hi⟩

-- A file with a function, and the first line of it.
def lined (stabs : List Stab) : List Stab :=
  [⟨0#32, 0#8, 0#16, 0#32⟩, ⟨0#32, nSo, 0#16, 0xF0100000#32⟩, ⟨0#32, nFun, 0#16, 0xF0100010#32⟩,
    ⟨0#32, nSline, 7#16, 0#32⟩] ++ stabs

-- An entry with which a scope begins.
def lbrac : Stab :=
  ⟨0#32, 0xC0#8, 0#16, 0#32⟩

variable (stabs r) in
theorem lined_last (hs : stabs = [] ∨ stabs = [lbrac]) (hr : r = 3 + stabs.length) :
    LastLe (HasType (lined stabs) nSo) (value (lined stabs)) (0xF0100015#32).toNat 0 r 1 ∧
      LastLe (HasType (lined stabs) nFun) (value (lined stabs)) (0xF0100015#32).toNat 1 r 2 ∧
      LastLe (HasType (lined stabs) nSline) (value (lined stabs)) (5#32).toNat 2 r 3 := by
  rcases hs with rfl | rfl
  all_goals
    subst hr
    refine ⟨⟨?_, ?_, ?_, ?_, ?_⟩, ⟨?_, ?_, ?_, ?_, ?_⟩, ⟨?_, ?_, ?_, ?_, ?_⟩⟩
    all_goals decide

variable (stabs r) in
theorem lined_ends (hs : stabs = [] ∨ stabs = [lbrac]) (hr : r = 3 + stabs.length) :
    Ends (HasType (lined stabs) nSo) 1 r r ∧ Ends (HasType (lined stabs) nFun) 2 r r ∧
      Ends (HasType (lined stabs) nSline) 3 r r := by
  rcases hs with rfl | rfl
  all_goals
    subst hr
    refine ⟨.inr ⟨?_, rfl⟩, .inr ⟨?_, rfl⟩, .inr ⟨?_, rfl⟩⟩
    all_goals
      unfold Free
      decide

theorem debuginfoEip_line_lined :
    ∃ info, debuginfoEip ⟨lined [], [0#8]⟩ none 0xF0100015#32 = .ok (0, info) ∧ info.eipLine = 7 := by
  obtain ⟨hso, hfn, hsline⟩ := lined_last [] 3 (.inl rfl) rfl
  obtain ⟨hso', hfn', hsline'⟩ := lined_ends [] 3 (.inl rfl) rfl
  have hs : Searches (lined []) 0xF0100015#32 ⟨1, 3⟩ ⟨2, 3⟩ 5#32 :=
    ⟨.of_eq hso hso' rfl, .of_eq hfn hfn' rfl, .of_eq hsline hsline' rfl⟩
  exact (debuginfoEip_line (by decide) (⟨by decide, hso, hso'⟩ : File (Tables.mk (lined []) [0#8]).stabs _ ⟨1, 3⟩)
    (.function hfn hfn') hs hsline).mpr ⟨rfl, .inl rfl⟩

-- The line is not found when the scope of the function begins behind it.
theorem not_line_lbrac :
    File (lined [lbrac]) 0xF0100015#32 ⟨1, 4⟩ ∧ Range (lined [lbrac]) 0xF0100015#32 ⟨1, 4⟩ ⟨2, 4⟩ 5#32 ∧
      Searches (lined [lbrac]) 0xF0100015#32 ⟨1, 4⟩ ⟨2, 4⟩ 5#32 ∧
      LastLe (HasType (lined [lbrac]) nSline) (value (lined [lbrac])) (5#32).toNat 2 4 3 ∧
      ¬∃ info, debuginfoEip ⟨lined [lbrac], [0#8]⟩ none 0xF0100015#32 = .ok (0, info) ∧ info.eipLine = 7 := by
  obtain ⟨hso, hfn, hsline⟩ := lined_last [lbrac] 4 (.inr rfl) rfl
  obtain ⟨hso', hfn', hsline'⟩ := lined_ends [lbrac] 4 (.inr rfl) rfl
  refine ⟨⟨by decide, hso, hso'⟩, @Range.function _ _ _ ⟨2, 4⟩ hfn hfn',
    ⟨.of_eq hso hso' rfl, .of_eq hfn hfn' rfl, .of_eq hsline hsline' rfl⟩, hsline, ?_⟩
  rintro ⟨info, h, -⟩
  cases h

end Jos
