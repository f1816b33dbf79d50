import Lilu.Mach.Running
import Lilu.Mach.Sections

/-!
# Solving symbols

A symbol is looked for in the symbol table of an image. The table and the strings are in a buffer;
where they are in it is the difference of their offsets in the file and that of the buffer, and such
a difference wraps when it is negative. The pointers are checked against both ends of the buffer.

## Main definitions

* `solveSymbol`: the search
* `symbolAddress`: what it should return
* `EntryInside`: what is read of an entry is in the buffer, and the entry may be looked at

## Main results

* `within_solveSymbol`, `run_solveSymbol`: where the search reads, and what it returns
* `solveSymbol_sound_iff`: when it reads in the buffer and returns what it should
* `entryInside_of_ordered`: tables that do not begin before the buffer
-/

namespace Lilu.MachInfo

open Lilu.Kext (CString)
open Lilu.Patcher (Addr Mem)
open Probe (Within byte word span compare)

/-! ## The search -/

/-- The bits of a debugging entry. -/
def N_STAB : UInt8 := 0xE0

section Search

variable (endaddr strlist kaslr_slide : Addr) (symbol : CString)

/-- The size of the symbol's name, with the terminating zero. -/
def symlen : ℕ :=
  symbol.length + 1

/-- Whether the entry at an address is the symbol: its string ends in the buffer, it is not for
debugging, and its string is the name. -/
def isSymbol (nlist symbolStr : Addr) : Probe Addr Bool :=
  -- only the end is compared, and the sum may wrap
  if symbolStr + BitVec.ofNat 64 (symlen symbol) ≤ endaddr then do
    let n_type ← byte (nlist + 4)
    if n_type &&& N_STAB = 0 then compare (span symbolStr (symlen symbol)) symbol
    else pure false
  else pure false

/-- The loop over the entries of the symbol table, of 16 bytes each. -/
def solveFrom : ℕ → Addr → Probe Addr Addr
  | 0, _ => pure 0
  | n + 1, nlist =>
    -- the same goes for the end of the entry
    if nlist + 16 ≤ endaddr then do
      let n_strx ← word 32 nlist
      if ← isSymbol endaddr symbol nlist (strlist + n_strx.setWidth 64) then
        let n_value ← word 64 (nlist + 8)
        pure (n_value + kaslr_slide)
      else solveFrom n (nlist + 16)
    else pure 0

end Search

/-- The address of the symbol table, as it is computed. -/
def nlistOf (s : Running) : Addr :=
  s.sym_buf + (s.symboltable_fileoff.setWidth 64 - s.sym_fileoff)

/-- The address of the strings, as it is computed. -/
def strlistOf (s : Running) : Addr :=
  s.sym_buf + (s.stringtable_fileoff.setWidth 64 - s.sym_fileoff)

/-- `solveSymbol`. -/
def solveSymbol (s : Running) (symbol : CString) : Probe Addr Addr :=
  if s.sym_buf = 0 then pure 0
  else if s.symboltable_fileoff = 0 then pure 0
  else if ¬ s.kaslr_slide_set then pure 0
  -- a difference below zero is to be found by this
  else if nlistOf s ≥ s.sym_buf ∧ strlistOf s ≥ s.sym_buf then
    solveFrom (s.sym_buf + s.sym_size) (strlistOf s) s.kaslr_slide symbol
      s.symboltable_nr_symbols.toNat (nlistOf s)
  else pure 0

/-! ## What it should return -/

/-- Both tables begin at the start of the buffer or behind it. -/
def Ordered (s : Running) : Prop :=
  s.sym_fileoff.toNat ≤ s.symboltable_fileoff.toNat ∧
    s.sym_fileoff.toNat ≤ s.stringtable_fileoff.toNat

instance (s : Running) : Decidable (Ordered s) :=
  inferInstanceAs (Decidable (_ ∧ _))

section Spec

variable (mem : Mem) (s : Running) (symbol : CString)

/-- The terminated string at a position in the buffer. -/
def stringAt (k : ℕ) : Option CString :=
  let bs := load mem (s.sym_buf + BitVec.ofNat 64 k) (s.sym_size.toNat - k)
  if 0 ∈ bs then some (bs.takeWhile (· ≠ 0)) else none

/-- The position of an entry in the buffer. -/
def entryPos (i : ℕ) : ℕ :=
  s.symboltable_fileoff.toNat - s.sym_fileoff.toNat + 16 * i

/-- Whether an entry is wholly in the buffer, not for debugging, and has the name. -/
def IsEntry (i : ℕ) : Prop :=
  let nlist := s.sym_buf + BitVec.ofNat 64 (entryPos s i)
  entryPos s i + 16 ≤ s.sym_size.toNat ∧ mem (nlist + 4) &&& N_STAB = 0 ∧
    stringAt mem s (s.stringtable_fileoff.toNat - s.sym_fileoff.toNat + (read 32 mem nlist).toNat) =
      some symbol

instance (i : ℕ) : Decidable (IsEntry mem s symbol i) :=
  inferInstanceAs (Decidable (_ ∧ _))

/-- The address of the first entry with the name, moved by the slide; zero if there is none, or if a
table begins before the buffer. -/
def symbolAddress : Addr :=
  if Ordered s then
    match (List.range s.symboltable_nr_symbols.toNat).find? (IsEntry mem s symbol ·) with
    | some i => read 64 mem (s.sym_buf + BitVec.ofNat 64 (entryPos s i) + 8) + s.kaslr_slide
    | none => 0
  else 0

end Spec

/-! ## The entries that are looked at -/

section Entries

variable (mem : Mem) (s : Running) (symbol : CString)

/-- The string of an entry, as its address is computed. -/
def symbolStrOf (nlist : Addr) : Addr :=
  strlistOf s + (read 32 mem nlist).setWidth 64

/-- The end of the string of an entry as long as the name is not behind that of the buffer; it may
have wrapped. -/
def StringEnds (nlist : Addr) : Prop :=
  symbolStrOf mem s nlist + BitVec.ofNat 64 (symlen symbol) ≤ s.sym_buf + s.sym_size

instance (nlist : Addr) : Decidable (StringEnds mem s symbol nlist) :=
  inferInstanceAs (Decidable (_ ≤ _))

/-- Whether the entry at an address is taken for the symbol. -/
def symbolAt (nlist : Addr) : Bool :=
  StringEnds mem s symbol nlist ∧ mem (nlist + 4) &&& N_STAB = 0 ∧
    load mem (symbolStrOf mem s nlist) (symlen symbol) = symbol ++ [0]

/-- The entries that the loop comes to, up to the symbol. -/
def entriesFrom : ℕ → Addr → List Addr
  | 0, _ => []
  | n + 1, nlist =>
    if nlist + 16 ≤ s.sym_buf + s.sym_size then
      nlist :: if symbolAt mem s symbol nlist then [] else entriesFrom n (nlist + 16)
    else []

/-- The entries of the symbol table. -/
def entriesOf : List Addr :=
  entriesFrom mem s symbol s.symboltable_nr_symbols.toNat (nlistOf s)

/-- What is read of an entry is in the buffer: the index of its string; its type, if the string ends
there; the string, as far as it is compared; and the value, if it is the symbol. -/
structure EntryInside (nlist : Addr) : Prop where
  n_strx : Inside s.sym_buf s.sym_size nlist 4
  n_type : StringEnds mem s symbol nlist → Inside s.sym_buf s.sym_size (nlist + 4) 1
  string : StringEnds mem s symbol nlist → mem (nlist + 4) &&& N_STAB = 0 →
    NameRead mem s.sym_buf s.sym_size (symlen symbol) (symbolStrOf mem s nlist) symbol
  n_value : symbolAt mem s symbol nlist → Inside s.sym_buf s.sym_size (nlist + 8) 8

/-- If neither table is found to begin before the buffer, then what is read of each entry is in the
buffer; and where a table does begin before it, no symbol is found, or one at the address zero. -/
structure Spared : Prop where
  inside : s.sym_buf ≤ nlistOf s → s.sym_buf ≤ strlistOf s →
    ∀ nlist ∈ entriesOf mem s symbol, EntryInside mem s symbol nlist
  zero : s.sym_buf ≤ nlistOf s → s.sym_buf ≤ strlistOf s → ¬ Ordered s →
    ∀ nlist ∈ entriesOf mem s symbol, symbolAt mem s symbol nlist →
      read 64 mem (nlist + 8) + s.kaslr_slide = 0

end Entries

/-! ## What the search does -/

section Runs

variable {mem : Mem} {s : Running} {symbol : CString} {nlist : Addr} {n : ℕ}

theorem run_isSymbol :
    (isSymbol (s.sym_buf + s.sym_size) symbol nlist (symbolStrOf mem s nlist)).run mem =
      symbolAt mem s symbol nlist := by
  have hlen : (span (symbolStrOf mem s nlist) (symlen symbol)).length = symbol.length + 1 := by
    rw [span, List.length_map, List.length_range, symlen]
  rw [isSymbol, Probe.run_ite, Probe.run_bind, Probe.run_byte, Probe.run_ite,
    Probe.run_compare_whole hlen, Probe.map_span, Probe.run_pure, symbolAt]
  simp only [StringEnds]
  split_ifs with hends htype
  · simp only [hends, htype, true_and]
  · simp only [htype, false_and, and_false, decide_false]
  · simp only [hends, false_and, decide_false]

/-- **What the search returns**: the value of the entry that is taken for the symbol. -/
theorem run_solveFrom :
    (solveFrom (s.sym_buf + s.sym_size) (strlistOf s) s.kaslr_slide symbol n nlist).run mem =
      (((entriesFrom mem s symbol n nlist).find? (symbolAt mem s symbol)).map fun e =>
        read 64 mem (e + 8) + s.kaslr_slide).getD 0 := by
  -- Induction on the entries left: the symbol is the last that the loop comes to.
  induction n generalizing nlist with
  | zero => rfl
  | succ n ih =>
    rw [solveFrom, entriesFrom]
    by_cases hfits : nlist + 16 ≤ s.sym_buf + s.sym_size
    · rw [if_pos hfits, if_pos hfits, Probe.run_bind, Probe.run_word, Probe.run_bind, ← symbolStrOf,
        run_isSymbol, Probe.run_ite, List.find?_cons]
      by_cases hsymbol : symbolAt mem s symbol nlist = true
      · rw [if_pos hsymbol, hsymbol, Probe.run_bind, Probe.run_word]
        rfl
      · rw [if_neg hsymbol, if_neg hsymbol, ih]
        rw [Bool.not_eq_true] at hsymbol
        rw [hsymbol]
    · rw [if_neg hfits, if_neg hfits]
      rfl

/-- There is nothing behind the symbol. -/
theorem find?_entriesFrom {e : Addr} (he : e ∈ entriesFrom mem s symbol n nlist)
    (hsymbol : symbolAt mem s symbol e) :
    (entriesFrom mem s symbol n nlist).find? (symbolAt mem s symbol) = some e := by
  induction n generalizing nlist with
  | zero => exact absurd he List.not_mem_nil
  | succ n ih =>
    rw [entriesFrom] at he ⊢
    by_cases hfits : nlist + 16 ≤ s.sym_buf + s.sym_size
    · rw [if_pos hfits] at he ⊢
      by_cases hfirst : symbolAt mem s symbol nlist = true
      · rw [if_pos hfirst, List.mem_singleton] at he
        rw [he, List.find?_cons_of_pos hfirst]
      · rw [if_neg hfirst, List.mem_cons] at he
        rcases he with rfl | he
        · exact absurd hsymbol hfirst
        · rw [if_neg hfirst, List.find?_cons_of_neg hfirst]
          exact ih he
    · rw [if_neg hfits] at he
      exact absurd he List.not_mem_nil

-- the buffer does not wrap
variable (hbuf : s.sym_buf.toNat + s.sym_size.toNat ≤ 2 ^ 64)
include hbuf

/-- Where the search for the symbol reads at an entry. -/
theorem within_isSymbol : Within (block s.sym_buf s.sym_size.toNat) mem
      (isSymbol (s.sym_buf + s.sym_size) symbol nlist (symbolStrOf mem s nlist)) ↔
    (StringEnds mem s symbol nlist → Inside s.sym_buf s.sym_size (nlist + 4) 1) ∧
      (StringEnds mem s symbol nlist → mem (nlist + 4) &&& N_STAB = 0 →
        NameRead mem s.sym_buf s.sym_size (symlen symbol) (symbolStrOf mem s nlist) symbol) := by
  have hbyte : nlist + 4 ∈ block s.sym_buf s.sym_size.toNat ↔
      Inside s.sym_buf s.sym_size (nlist + 4) 1 := by
    rw [mem_block_iff hbuf, Inside]
    omega
  rw [isSymbol, Probe.within_ite, Probe.within_bind, Probe.within_byte, Probe.run_byte,
    Probe.within_ite, within_compareName hbuf, hbyte]
  constructor
  · rintro ⟨hends, -⟩
    exact ⟨fun h => (hends h).1, fun h => (hends h).2.1⟩
  · rintro ⟨htype, hstring⟩
    exact ⟨fun h => ⟨htype h, hstring h, fun _ => Probe.within_pure _⟩, fun _ => Probe.within_pure _⟩

/-- **Where the search reads**: at the entries that the loop comes to. -/
theorem within_solveFrom : Within (block s.sym_buf s.sym_size.toNat) mem
      (solveFrom (s.sym_buf + s.sym_size) (strlistOf s) s.kaslr_slide symbol n nlist) ↔
    ∀ e ∈ entriesFrom mem s symbol n nlist, EntryInside mem s symbol e := by
  induction n generalizing nlist with
  | zero => exact iff_of_true (Probe.within_pure _) fun e he => absurd he List.not_mem_nil
  | succ n ih =>
    rw [solveFrom, entriesFrom]
    by_cases hfits : nlist + 16 ≤ s.sym_buf + s.sym_size
    · have hvalue : Within (block s.sym_buf s.sym_size.toNat) mem (word 64 (nlist + 8)) ↔
          Inside s.sym_buf s.sym_size (nlist + 8) 8 := by
        rw [Probe.within_word, block_inside_iff hbuf (by decide)]
      rw [if_pos hfits, if_pos hfits, Probe.within_bind, within_word32 hbuf, Probe.run_word,
        ← symbolStrOf, Probe.within_bind, within_isSymbol hbuf, run_isSymbol, List.forall_mem_cons]
      -- the value is read of the symbol only
      by_cases hsymbol : symbolAt mem s symbol nlist = true
      · rw [if_pos hsymbol, if_pos hsymbol, Probe.within_bind, hvalue]
        constructor
        · rintro ⟨hstrx, ⟨htype, hstring⟩, hread, -⟩
          exact ⟨⟨hstrx, htype, hstring, fun _ => hread⟩, fun e he => absurd he List.not_mem_nil⟩
        · rintro ⟨⟨hstrx, htype, hstring, hread⟩, -⟩
          exact ⟨hstrx, ⟨htype, hstring⟩, hread hsymbol, Probe.within_pure _⟩
      · rw [if_neg hsymbol, if_neg hsymbol, ih]
        constructor
        · rintro ⟨hstrx, ⟨htype, hstring⟩, hrest⟩
          exact ⟨⟨hstrx, htype, hstring, fun h => absurd h hsymbol⟩, hrest⟩
        · rintro ⟨⟨hstrx, htype, hstring, -⟩, hrest⟩
          exact ⟨hstrx, ⟨htype, hstring⟩, hrest⟩
    · rw [if_neg hfits, if_neg hfits]
      exact iff_of_true (Probe.within_pure _) fun e he => absurd he List.not_mem_nil

end Runs

/-! ## Tables that do not begin before the buffer -/

/-- A terminated string is a name if and only if the name and a zero stand there. -/
theorem takeWhile_eq_iff {name : CString} (hname : 0 ∉ name) : ∀ {bs : List UInt8},
    0 ∈ bs ∧ bs.takeWhile (· ≠ 0) = name ↔ bs.take (name.length + 1) = name ++ [0] := by
  induction name with
  | nil =>
    intro bs
    cases bs with
    | nil => simp
    | cons b bs =>
      by_cases hb : b = 0
      · simp [hb]
      · simp [hb, Ne.symm hb]
  | cons c name ih =>
    rw [List.mem_cons, not_or] at hname
    intro bs
    cases bs with
    | nil => simp
    | cons b bs =>
      rw [List.length_cons, List.take_succ_cons, List.cons_append, List.cons.injEq, ← ih hname.2,
        List.takeWhile_cons]
      by_cases hb : b = 0
      · simp [hb, hname.1]
      · simp only [List.mem_cons, Ne.symm hb, false_or, hb, ne_eq, not_false_eq_true, decide_true,
          if_true, List.cons.injEq]
        exact and_left_comm

/-- A name that is found is compared to its end, so that all of it is in the buffer. -/
theorem block_subset_of_nameRead {mem : Mem} {ptr sourceSize a : Addr} {name : CString}
    (hbuf : ptr.toNat + sourceSize.toNat ≤ 2 ^ 64)
    (hread : NameRead mem ptr sourceSize (symlen name) a name)
    (hsame : load mem a (symlen name) = name ++ [0]) :
    block a (symlen name) ⊆ block ptr sourceSize.toNat := by
  intro x hx
  have hle : (x - a).toNat ≤ name.length := Nat.le_of_lt_succ hx
  -- all bytes before it are those of the name, so it is compared
  have hbefore : load mem a (x - a).toNat = name.take (x - a).toNat := by
    have htake := congrArg (List.take (x - a).toNat) hsame
    rwa [take_load, min_eq_left hx.le, List.take_append_of_le_length hle] at htake
  have hinside := hread _ hx hle hbefore
  rw [BitVec.ofNat_toNat, BitVec.setWidth_eq, BitVec.add_comm, BitVec.sub_add_cancel] at hinside
  rw [mem_block_iff hbuf]
  exact hinside

section Ordered

variable {mem : Mem} {s : Running} {symbol : CString} {nlist e : Addr} {i k n : ℕ}

/-- The string at a position is the name if and only if the name and its terminating zero are there,
in the buffer. -/
theorem stringAt_eq_some_iff (hname : 0 ∉ symbol) : stringAt mem s k = some symbol ↔
    k + symlen symbol ≤ s.sym_size.toNat ∧
      load mem (s.sym_buf + BitVec.ofNat 64 k) (symlen symbol) = symbol ++ [0] := by
  have hsome : stringAt mem s k = some symbol ↔
      0 ∈ load mem (s.sym_buf + BitVec.ofNat 64 k) (s.sym_size.toNat - k) ∧
        (load mem (s.sym_buf + BitVec.ofNat 64 k) (s.sym_size.toNat - k)).takeWhile (· ≠ 0) =
          symbol := by
    rw [stringAt]
    split_ifs with hmem
    · simp only [hmem, true_and, Option.some.injEq]
    · simp only [hmem, false_and]
  have htake : (load mem (s.sym_buf + BitVec.ofNat 64 k) (s.sym_size.toNat - k)).take
        (symbol.length + 1) =
      load mem (s.sym_buf + BitVec.ofNat 64 k) (min (symlen symbol) (s.sym_size.toNat - k)) :=
    take_load
  rw [hsome, takeWhile_eq_iff hname, htake]
  constructor
  · intro h
    have hlen := congrArg List.length h
    rw [length_load, List.length_append, List.length_singleton, ← symlen] at hlen
    -- the name is as long as what is taken, so the buffer goes on that far
    have hle : symlen symbol ≤ s.sym_size.toNat - k := by omega
    rw [min_eq_left hle] at h
    have hpos : 0 < symlen symbol := Nat.succ_pos _
    exact ⟨by omega, h⟩
  · rintro ⟨hle, h⟩
    rwa [min_eq_left (by omega)]

-- the tables do not begin before the buffer, which is not near the end of the address space
variable (hordered : Ordered s)
  (hroom : s.sym_buf.toNat + s.sym_size.toNat + 2 ^ 34 ≤ 2 ^ 64)

/-- The address of an entry. -/
def entryAt (s : Running) (i : ℕ) : Addr :=
  s.sym_buf + BitVec.ofNat 64 (entryPos s i)

/-- The position of the strings in the buffer. -/
def stringsPos (s : Running) : ℕ :=
  s.stringtable_fileoff.toNat - s.sym_fileoff.toNat

theorem entryPos_succ : entryPos s (i + 1) = entryPos s i + 16 := by
  rw [entryPos, entryPos, Nat.mul_succ, Nat.add_assoc]

theorem entryAt_succ : entryAt s i + 16 = entryAt s (i + 1) := by
  rw [entryAt, entryAt, entryPos_succ, BitVec.ofNat_add, ← BitVec.add_assoc]
  rfl

include hordered in
theorem nlistOf_eq : nlistOf s = entryAt s 0 := by
  have hle := hordered.1
  have hlt := s.symboltable_fileoff.isLt
  rw [nlistOf, entryAt, entryPos]
  congr 1
  apply BitVec.eq_of_toNat_eq
  bv_omega

include hordered in
theorem strlistOf_eq : strlistOf s = s.sym_buf + BitVec.ofNat 64 (stringsPos s) := by
  have hle := hordered.2
  have hlt := s.stringtable_fileoff.isLt
  rw [strlistOf, stringsPos]
  congr 1
  apply BitVec.eq_of_toNat_eq
  bv_omega

/-- The position of an entry's string. -/
def stringPos (mem : Mem) (s : Running) (nlist : Addr) : ℕ :=
  stringsPos s + (read 32 mem nlist).toNat

include hordered in
theorem symbolStrOf_eq :
    symbolStrOf mem s nlist = s.sym_buf + BitVec.ofNat 64 (stringPos mem s nlist) := by
  have hwide : (read 32 mem nlist).setWidth 64 = BitVec.ofNat 64 (read 32 mem nlist).toNat :=
    (BitVec.ofNat_toNat 64 _).symm
  rw [symbolStrOf, strlistOf_eq hordered, stringPos, BitVec.ofNat_add, hwide, BitVec.add_assoc]

theorem stringPos_lt : stringPos mem s nlist < 2 ^ 33 := by
  have hlt := s.stringtable_fileoff.isLt
  have hstrx := (read 32 mem nlist).isLt
  rw [stringPos, stringsPos]
  omega

include hordered hroom in
theorem toNat_symbolStrOf :
    (symbolStrOf mem s nlist).toNat = s.sym_buf.toNat + stringPos mem s nlist := by
  have hlt := @stringPos_lt mem s nlist
  rw [symbolStrOf_eq hordered, BitVec.toNat_add, BitVec.toNat_ofNat]
  omega

include hroom in
theorem toNat_end : (s.sym_buf + s.sym_size).toNat = s.sym_buf.toNat + s.sym_size.toNat := by
  rw [BitVec.toNat_add]
  exact Nat.mod_eq_of_lt (by omega)

include hordered hroom in
/-- An entry whose string is in the buffer as far as it is compared is the symbol if and only if the
terminated string in the buffer is the name. -/
theorem symbolAt_iff (hname : 0 ∉ symbol) (hinside : EntryInside mem s symbol nlist) :
    symbolAt mem s symbol nlist ↔ mem (nlist + 4) &&& N_STAB = 0 ∧
      stringAt mem s (stringPos mem s nlist) = some symbol := by
  have hend := toNat_end hroom
  have hstart := @toNat_symbolStrOf mem s nlist hordered hroom
  have hpos : 0 < symlen symbol := Nat.succ_pos _
  rw [stringAt_eq_some_iff hname, ← symbolStrOf_eq hordered, symbolAt, decide_eq_true_eq]
  constructor
  · rintro ⟨hends, htype, hsame⟩
    -- the end may have wrapped, but what is compared is in the buffer
    have hblock := block_subset_of_nameRead (by omega) (hinside.string hends htype) hsame
    have hfits := ((block_subset_block_iff (by omega) s.sym_size.isLt hpos).mp hblock).2
    exact ⟨htype, by omega, hsame⟩
  · rintro ⟨htype, hfits, hsame⟩
    refine ⟨?_, htype, hsame⟩
    have hsum : (symbolStrOf mem s nlist + BitVec.ofNat 64 (symlen symbol)).toNat =
        s.sym_buf.toNat + stringPos mem s nlist + symlen symbol := by
      rw [BitVec.toNat_add, hstart, BitVec.toNat_ofNat]
      omega
    rw [StringEnds, BitVec.le_def, hsum, hend]
    omega

include hroom in
/-- An entry is found to be in the buffer if and only if it is, as long as no pointer wraps. -/
theorem entryAt_fits_iff (hpos : entryPos s i ≤ s.sym_size.toNat + 2 ^ 32) :
    entryAt s i + 16 ≤ s.sym_buf + s.sym_size ↔ entryPos s i + 16 ≤ s.sym_size.toNat := by
  have hend := toNat_end hroom
  have haddr : (entryAt s i).toNat = s.sym_buf.toNat + entryPos s i := by
    rw [entryAt, BitVec.toNat_add, BitVec.toNat_ofNat]
    omega
  have hnext : (entryAt s i + 16).toNat = s.sym_buf.toNat + entryPos s i + 16 := by
    have hsize : (16 : Addr).toNat = 16 := rfl
    rw [BitVec.toNat_add, haddr, hsize]
    exact Nat.mod_eq_of_lt (by omega)
  rw [BitVec.le_def, hnext, hend]
  omega

include hordered hroom in
/-- **The entry that is found** is the first with the name. -/
theorem find?_entriesFrom_eq (hname : 0 ∉ symbol)
    (hpos : entryPos s i ≤ s.sym_size.toNat + 2 ^ 32)
    (hinside : ∀ e ∈ entriesFrom mem s symbol n (entryAt s i), EntryInside mem s symbol e) :
    (entriesFrom mem s symbol n (entryAt s i)).find? (symbolAt mem s symbol) =
      ((List.range' i n).find? (IsEntry mem s symbol ·)).map (entryAt s) := by
  -- Induction on the entries left, with their index in the table.
  induction n generalizing i with
  | zero => rfl
  | succ n ih =>
    have hfits_iff := entryAt_fits_iff hroom hpos
    rw [entriesFrom] at hinside ⊢
    by_cases hfits : entryAt s i + 16 ≤ s.sym_buf + s.sym_size
    · rw [if_pos hfits] at hinside ⊢
      rw [List.forall_mem_cons] at hinside
      have hentry : IsEntry mem s symbol i ↔ symbolAt mem s symbol (entryAt s i) := by
        rw [symbolAt_iff hordered hroom hname hinside.1]
        exact and_iff_right (hfits_iff.mp hfits)
      rw [List.range'_succ]
      by_cases hsymbol : symbolAt mem s symbol (entryAt s i) = true
      · rw [List.find?_cons_of_pos hsymbol, List.find?_cons_of_pos (by simpa using hentry.mpr hsymbol)]
        rfl
      · have hrest := hinside.2
        rw [if_neg hsymbol, entryAt_succ] at hrest
        rw [List.find?_cons_of_neg hsymbol, if_neg hsymbol, entryAt_succ,
          List.find?_cons_of_neg (by simpa using hentry.not.mpr hsymbol)]
        refine ih ?_ hrest
        have hin := hfits_iff.mp hfits
        rw [entryPos_succ]
        omega
    · -- all entries behind are out of the buffer, too
      have hnone : (List.range' i (n + 1)).find? (IsEntry mem s symbol ·) = none := by
        rw [List.find?_eq_none]
        intro j hj hentry
        have hle : i ≤ j := (List.mem_range'_1.mp hj).1
        have hin : entryPos s j + 16 ≤ s.sym_size.toNat := (of_decide_eq_true hentry).1
        have hout := hfits_iff.not.mp hfits
        rw [entryPos] at hin hout
        omega
      rw [if_neg hfits, hnone]
      rfl

theorem entryPos_zero_lt : entryPos s 0 < 2 ^ 32 := by
  have hlt := s.symboltable_fileoff.isLt
  rw [entryPos]
  omega

include hordered hroom in
/-- **What is found in ordered tables** is what should be. -/
theorem run_solveFrom_ordered (hname : 0 ∉ symbol)
    (hinside : ∀ e ∈ entriesOf mem s symbol, EntryInside mem s symbol e) :
    (solveFrom (s.sym_buf + s.sym_size) (strlistOf s) s.kaslr_slide symbol
        s.symboltable_nr_symbols.toNat (nlistOf s)).run mem = symbolAddress mem s symbol := by
  have hfirst := @entryPos_zero_lt s
  rw [entriesOf, nlistOf_eq hordered] at hinside
  rw [run_solveFrom, nlistOf_eq hordered, find?_entriesFrom_eq hordered hroom hname (by omega) hinside,
    symbolAddress, if_pos hordered, List.range_eq_range']
  cases (List.range' 0 s.symboltable_nr_symbols.toNat).find? (IsEntry mem s symbol ·) <;> rfl

include hroom in
/-- The entries that the loop comes to are in the buffer. -/
theorem mem_entriesFrom (hpos : entryPos s i ≤ s.sym_size.toNat + 2 ^ 32)
    (he : e ∈ entriesFrom mem s symbol n (entryAt s i)) :
    ∃ j, e = entryAt s j ∧ entryPos s j + 16 ≤ s.sym_size.toNat := by
  induction n generalizing i with
  | zero => exact absurd he List.not_mem_nil
  | succ n ih =>
    rw [entriesFrom] at he
    by_cases hfits : entryAt s i + 16 ≤ s.sym_buf + s.sym_size
    · have hin := (entryAt_fits_iff hroom hpos).mp hfits
      rw [if_pos hfits, List.mem_cons, entryAt_succ] at he
      rcases he with rfl | he
      · exact ⟨i, rfl, hin⟩
      · split_ifs at he with hsymbol
        · exact absurd he List.not_mem_nil
        · refine ih ?_ he
          rw [entryPos_succ]
          omega
    · rw [if_neg hfits] at he
      exact absurd he List.not_mem_nil

include hordered hroom in
/-- What is read of an entry in the buffer is in the buffer, if the name has no more than `2 ^ 33`
bytes. -/
theorem entryInside_of_ordered (hin : entryPos s i + 16 ≤ s.sym_size.toNat)
    (hshort : symlen symbol ≤ 2 ^ 33) : EntryInside mem s symbol (entryAt s i) := by
  have haddr : (entryAt s i).toNat = s.sym_buf.toNat + entryPos s i := by
    rw [entryAt, BitVec.toNat_add, BitVec.toNat_ofNat]
    omega
  have hfield : ∀ k n, k + n ≤ 16 →
      Inside s.sym_buf s.sym_size (entryAt s i + BitVec.ofNat 64 k) n := by
    intro k n hk
    have hadd : (entryAt s i + BitVec.ofNat 64 k).toNat = (entryAt s i).toNat + k := by
      rw [BitVec.toNat_add, BitVec.toNat_ofNat]
      omega
    rw [Inside, hadd]
    omega
  have hfirst : Inside s.sym_buf s.sym_size (entryAt s i) 4 := by
    have hzero := hfield 0 4 (by decide)
    rwa [BitVec.add_zero] at hzero
  -- the string is the only part that is not in the entry
  refine ⟨hfirst, fun _ => hfield 4 1 (by decide), fun hends _ j hj _ _ => ?_,
    fun _ => hfield 8 8 (by decide)⟩
  have hstart := @toNat_symbolStrOf mem s (entryAt s i) hordered hroom
  have hpos := @stringPos_lt mem s (entryAt s i)
  have hend := toNat_end hroom
  rw [StringEnds, BitVec.le_def, hend] at hends
  rw [Inside]
  bv_omega

end Ordered

/-! ## When the search is right -/

section Sound

variable {mem : Mem} {s : Running} {symbol : CString}

/-- The search reads in the buffer, and returns what it should. -/
structure SolvesSymbol (mem : Mem) (s : Running) (symbol : CString) : Prop where
  within : Within (block s.sym_buf s.sym_size.toNat) mem (solveSymbol s symbol)
  result : (solveSymbol s symbol).run mem = symbolAddress mem s symbol

/-- The tables are not more than the address of the buffer before it. -/
def NotFarBefore (s : Running) : Prop :=
  s.sym_fileoff.toNat ≤ s.symboltable_fileoff.toNat + s.sym_buf.toNat ∧
    s.sym_fileoff.toNat ≤ s.stringtable_fileoff.toNat + s.sym_buf.toNat

/-- Then they are found to begin before it, if they do. -/
theorem ordered_of_notFarBefore (hnear : NotFarBefore s) (hnlist : s.sym_buf ≤ nlistOf s)
    (hstrlist : s.sym_buf ≤ strlistOf s) : Ordered s := by
  have hsym := s.symboltable_fileoff.isLt
  have hstr := s.stringtable_fileoff.isLt
  obtain ⟨hsymoff, hstroff⟩ := hnear
  rw [nlistOf] at hnlist
  rw [strlistOf] at hstrlist
  constructor
  · bv_omega
  · bv_omega

variable (hset : s.sym_buf ≠ 0) (hoff : s.symboltable_fileoff ≠ 0)
  (hslide : s.kaslr_slide_set = true)

include hset hoff hslide in
/-- With a buffer, a table and a slide, the search is the loop if both tables are found to begin in
the buffer or behind it. -/
theorem solveSymbol_eq : solveSymbol s symbol =
    if s.sym_buf ≤ nlistOf s ∧ s.sym_buf ≤ strlistOf s then
      solveFrom (s.sym_buf + s.sym_size) (strlistOf s) s.kaslr_slide symbol
        s.symboltable_nr_symbols.toNat (nlistOf s)
    else pure 0 := by
  rw [solveSymbol, if_neg hset, if_neg hoff, if_neg (not_not.mpr hslide)]

variable (hroom : s.sym_buf.toNat + s.sym_size.toNat + 2 ^ 34 ≤ 2 ^ 64)

include hroom in
/-- Tables that do not begin before the buffer are not found to. -/
theorem le_of_ordered (hordered : Ordered s) : s.sym_buf ≤ nlistOf s ∧ s.sym_buf ≤ strlistOf s := by
  have hfirst := @entryPos_zero_lt s
  have hstr := s.stringtable_fileoff.isLt
  rw [nlistOf_eq hordered, strlistOf_eq hordered, entryAt, stringsPos]
  constructor
  · bv_omega
  · bv_omega

include hset hoff hslide hroom in
theorem solvesSymbol_iff (hname : 0 ∉ symbol) :
    SolvesSymbol mem s symbol ↔ Spared mem s symbol := by
  have heq : solveSymbol s symbol = _ := solveSymbol_eq hset hoff hslide
  by_cases hfound : s.sym_buf ≤ nlistOf s ∧ s.sym_buf ≤ strlistOf s
  · rw [if_pos hfound] at heq
    have hwithin := @within_solveFrom mem s symbol (nlistOf s) s.symboltable_nr_symbols.toNat
      (by omega)
    rw [← heq] at hwithin
    constructor
    · rintro ⟨hin, hresult⟩
      have hinside := hwithin.mp hin
      refine ⟨fun _ _ => hinside, fun _ _ hbefore e he hsymbol => ?_⟩
      rw [heq, run_solveFrom, find?_entriesFrom he hsymbol, symbolAddress, if_neg hbefore] at hresult
      exact hresult
    · rintro ⟨hinside, hzero⟩
      have hinside := hinside hfound.1 hfound.2
      refine ⟨hwithin.mpr hinside, ?_⟩
      by_cases hordered : Ordered s
      · rw [heq]
        exact run_solveFrom_ordered hordered hroom hname hinside
      · -- a symbol that is found all the same has the address zero
        rw [heq, run_solveFrom, symbolAddress, if_neg hordered]
        cases hfind : (entriesFrom mem s symbol s.symboltable_nr_symbols.toNat (nlistOf s)).find?
            (symbolAt mem s symbol) with
        | none => rfl
        | some e =>
          exact hzero hfound.1 hfound.2 hordered e (List.mem_of_find?_eq_some hfind)
            (List.find?_some hfind)
  · rw [if_neg hfound] at heq
    have hbefore : ¬ Ordered s := fun hordered => hfound (le_of_ordered hroom hordered)
    constructor
    · exact fun _ => ⟨fun h h' => absurd ⟨h, h'⟩ hfound, fun h h' => absurd ⟨h, h'⟩ hfound⟩
    · refine fun _ => ⟨?_, ?_⟩
      · rw [heq]
        exact Probe.within_pure _
      · rw [heq, symbolAddress, if_neg hbefore]
        rfl

include hroom in
/-- Tables that are not far before the buffer are searched as they should be, for a name that has no
more than `2 ^ 33` bytes. -/
theorem spared_of_notFarBefore (hnear : NotFarBefore s) (hshort : symlen symbol ≤ 2 ^ 33) :
    Spared mem s symbol := by
  refine ⟨fun hnlist hstrlist e he => ?_, fun hnlist hstrlist hbefore => ?_⟩
  · have hordered := ordered_of_notFarBefore hnear hnlist hstrlist
    have hfirst := @entryPos_zero_lt s
    rw [entriesOf, nlistOf_eq hordered] at he
    obtain ⟨j, rfl, hin⟩ := mem_entriesFrom hroom (by omega) he
    exact entryInside_of_ordered hordered hroom hin hshort
  · exact absurd (ordered_of_notFarBefore hnear hnlist hstrlist) hbefore

include hset hoff hslide hroom in
/-- **Solving a symbol**: the search reads in the buffer and returns the address of the first entry
with the name, or zero, if and only if what it reads of each entry that it comes to is in the
buffer, and no symbol is found where a table begins before the buffer. That is so if the tables are
not more than the buffer's address before it. Where they are, the pointers wrap, and are found to be
behind the start of the buffer. -/
theorem solveSymbol_sound_iff (hname : 0 ∉ symbol) :
    (SolvesSymbol mem s symbol ↔ Spared mem s symbol) ∧
      (NotFarBefore s → symlen symbol ≤ 2 ^ 33 → SolvesSymbol mem s symbol) := by
  have hiff := @solvesSymbol_iff mem s symbol hset hoff hslide hroom hname
  exact ⟨hiff, fun hnear hshort => hiff.mpr (spared_of_notFarBefore hroom hnear hshort)⟩

end Sound

/-- A buffer at `0x10000` with a symbol table of one entry, and the strings behind it. -/
def oneSymbol : Running where
  kaslr_slide_set := true
  kaslr_slide := 0x2000
  sym_buf := 0x10000
  sym_size := 0x100
  sym_fileoff := 0x1000
  symboltable_fileoff := 0x1000
  symboltable_nr_symbols := 1
  stringtable_fileoff := 0x1010

/-- The entry has the value 16 and the name `__TEXT`. -/
def oneEntry : Mem := fun a =>
  let k := (a - 0x10000).toNat
  if k = 8 then 16
  else if 16 ≤ k ∧ k < 22 then TEXT.getD (k - 16) 0
  else 0

/-- It is found. -/
theorem solveSymbol_sound_iff_oneSymbol :
    SolvesSymbol oneEntry oneSymbol TEXT ∧ symbolAddress oneEntry oneSymbol TEXT = 0x2010 := by
  have hnear : NotFarBefore oneSymbol := ⟨by decide, by decide⟩
  have hshort : symlen TEXT ≤ 2 ^ 33 := by decide
  refine ⟨(solveSymbol_sound_iff (by decide) (by decide) rfl ?_ (by decide)).2 hnear hshort, ?_⟩
  · decide
  · decide +kernel

/-- A buffer at `0x10000` whose offset in the file is 8 more than its address behind that of the
tables. -/
def wrapped : Running where
  kaslr_slide_set := true
  sym_buf := 0x10000
  sym_size := 0x1000
  sym_fileoff := 0x11008
  symboltable_fileoff := 0x1000
  symboltable_nr_symbols := 1
  stringtable_fileoff := 0x1000

/-- Its first entry is looked for at the end of the address space. -/
theorem not_solveSymbol_sound_wrapped : ¬ ∀ (mem : Mem) (s : Running) (symbol : CString),
    s.sym_buf ≠ 0 → s.symboltable_fileoff ≠ 0 → s.kaslr_slide_set = true →
    s.sym_buf.toNat + s.sym_size.toNat + 2 ^ 34 ≤ 2 ^ 64 → 0 ∉ symbol →
      SolvesSymbol mem s symbol := by
  intro h
  have hsolves := h (fun _ => 0) wrapped TEXT (by decide) (by decide) rfl (by decide) (by decide)
  -- the entry before the end of the address space ends at 8, which passes for inside
  have hread : (0xFFFFFFFFFFFFFFF8 : Addr) ∈ (solveSymbol wrapped TEXT).asked fun _ => 0 := by
    decide +kernel
  exact absurd (mem_block.mp (hsolves.within _ hread)) (by decide)

end Lilu.MachInfo
