import Lilu.Prelude.Keyed
import Lilu.User.MapAddresses

/-!
# The blocks of the map

A map is made of blocks: a line with the path of an image, and a line for each of its segments with
the addresses that it begins and ends at. `mapAddresses` takes the end of the data segment from the
first arrow behind the path, which is that of the text segment, and where a block has no data
segment it goes on to the next name like it in the rest of the map.

## Main definitions

* `MapBlock`: a block, and how it is written
* `Mapped`: the requested paths have the addresses of their own blocks
* `MapBlock.Kept`: what must be so behind a block for its addresses to be its own

## Main results

* `readBlock_block`: what is read behind a requested path
* `loop_blocks`: the loop takes a map block by block
* `mapped_iff`: when all requested paths have their own addresses
-/

namespace Lilu.UserPatcher

open Lilu.Kext (CString)
open Lilu.Util (strstr)

/-! ## Addresses -/

/-- An address in hexadecimal digits. -/
structure Address where
  digits : CString
  hex : ∀ c ∈ digits, (hexDigit? c).isSome
  nonempty : digits ≠ []
  fits : digitsValue 0 digits < 2 ^ 64

namespace Address

variable (a : Address)

def value : VmAddress :=
  BitVec.ofNat 64 (digitsValue 0 a.digits)

/-- `0x` and the digits. -/
def render : CString :=
  48 :: 120 :: a.digits

variable {a}

theorem not_mem_digits {c : UInt8} (hc : hexDigit? c = none) : c ∉ a.digits := by
  intro h
  have := a.hex c h
  rw [hc] at this
  cases this

theorem not_mem_render {c : UInt8} (hc : hexDigit? c = none) (hx : c ≠ 120) : c ∉ a.render := by
  have hzero : c ≠ 48 := fun h => by rw [h] at hc; cases hc
  simp [render, hx, hzero, not_mem_digits hc]

end Address

/-- Digits end where something else follows. -/
theorem digitsValue_append {digits rest : CString} (hdigits : ∀ c ∈ digits, (hexDigit? c).isSome)
    (hrest : ∀ c ∈ rest.head?, hexDigit? c = none) (acc : ℕ) :
    digitsValue acc (digits ++ rest) = digitsValue acc digits := by
  induction digits generalizing acc with
  | nil =>
    cases rest with
    | nil => rfl
    | cons c rest =>
      simp [digitsValue, hrest c rfl]
  | cons c digits ih =>
    obtain ⟨d, hd⟩ := Option.isSome_iff_exists.mp (hdigits c List.mem_cons_self)
    rw [List.cons_append, digitsValue, digitsValue, hd]
    exact ih (fun b hb => hdigits b (List.mem_cons_of_mem c hb)) _

/-- **An address is read** as it is written. -/
theorem lilu_strtou_render (a : Address) {rest : CString}
    (hrest : ∀ c ∈ rest.head?, hexDigit? c = none) : lilu_strtou (a.render ++ rest) = a.value := by
  have hstrip : lilu_strtou (a.render ++ rest) =
      if 2 ^ 64 ≤ digitsValue 0 (a.digits ++ rest) then BitVec.allOnes 64
      else BitVec.ofNat 64 (digitsValue 0 (a.digits ++ rest)) := rfl
  rw [hstrip, digitsValue_append a.hex hrest 0, if_neg (Nat.not_le.mpr a.fits)]
  rfl

/-- Where a segment begins and ends. -/
structure Range where
  start : Address
  stop : Address

/-- ` -> ` -/
def arrowSpaced : CString := [32, 45, 62, 32]

def Range.render (r : Range) : CString :=
  r.start.render ++ arrowSpaced ++ r.stop.render

theorem Range.not_mem_render {r : Range} {c : UInt8} (hc : hexDigit? c = none) (hx : c ≠ 120)
    (harrow : c ∉ arrowSpaced) : c ∉ r.render := by
  simp only [render, List.mem_append, not_or]
  exact ⟨⟨Address.not_mem_render hc hx, harrow⟩, Address.not_mem_render hc hx⟩

/-! ## Blocks -/

/-- A path has no newline, and does not begin like the line of a segment. -/
structure IsPath (f : CString) : Prop where
  nonempty : f ≠ []
  newline : 10 ∉ f
  tab : f.head? ≠ some 9

/-- A block of the map: an image with its text segment, its data segment if there is one, and the
lines of its other segments. -/
structure MapBlock where
  path : CString
  text : Range
  data : Option Range
  others : List CString
  isPath : IsPath path
  newline : ∀ l ∈ others, 10 ∉ l

namespace MapBlock

/-- The lines of some segments, each behind a newline and a tab. -/
def lines (l : List CString) : CString :=
  l.flatMap fun s => 10 :: 9 :: s

variable (b : MapBlock)

/-- The line of the text segment. -/
def textLine : CString :=
  nameTEXT ++ 9 :: b.text.render

/-- The lines of the segments behind it. -/
def segments : List CString :=
  (b.data.map fun r => nameDATA ++ 9 :: r.render).toList ++ b.others

/-- What is behind the path. -/
def behind : CString :=
  lines (b.textLine :: b.segments)

def render : CString :=
  10 :: b.path ++ b.behind

/-- The entry of the block's own addresses. -/
def own (e : MapEntry) : MapEntry :=
  { e with
    startTEXT := b.text.start.value
    endTEXT := b.text.stop.value
    startDATA := (b.data.map (·.start.value)).getD 0
    endDATA := (b.data.map (·.stop.value)).getD 0 }

end MapBlock

/-- The text of a map. -/
def renderMap (blocks : List MapBlock) : CString :=
  blocks.flatMap MapBlock.render

/-- An entry as the caller makes it. -/
def MapEntry.ofPath (f : CString) : MapEntry where
  filename := some f
  length := f.length
  sized := fun _ hf => by rw [← Option.some.inj hf]

/-- **The claim of the map**: each requested path that is in a block has the addresses of the block,
and the number of these paths is returned. -/
structure Mapped (blocks : List MapBlock) (requests : List CString) (r : List MapEntry × ℕ) :
    Prop where
  entries : ∀ (k : ℕ) f, requests[k]? = some f → ∀ b ∈ blocks, b.path = f →
    r.1[k]? = some (b.own (.ofPath f))
  count : r.2 = (requests.filter fun f => (blocks.map (·.path)).contains f).length

/-! ## What is read behind a path -/

variable {b : MapBlock} {e : MapEntry} {tail : CString}

/-- The rest of the text behind a block is empty or another line. -/
def Follows (tail : CString) : Prop :=
  ∀ c ∈ tail.head?, c = 10

theorem follows_lines (l : List CString) (h : Follows tail) :
    Follows (MapBlock.lines l ++ tail) := by
  cases l with
  | nil => exact h
  | cons s l =>
    intro c hc
    exact (Option.some.inj hc).symm

theorem follows_renderMap (blocks : List MapBlock) : Follows (renderMap blocks) := by
  cases blocks with
  | nil => exact nofun
  | cons b blocks =>
    intro c hc
    exact (Option.some.inj hc).symm

/-- What a block's entry is: its own addresses, but the data segment ends with the text segment. If
there is none, it begins with the next one in the rest of the map. -/
def MapBlock.read (b : MapBlock) (tail : CString) (e : MapEntry) : Option MapEntry :=
  let e := { e with startTEXT := b.text.start.value, endTEXT := b.text.stop.value }
  match b.data with
  | some d => some { e with startDATA := d.start.value, endDATA := b.text.stop.value }
  | none =>
    match strstr (MapBlock.lines b.others ++ tail) nameDATA 6 with
    | none => some e
    | some k => (advance (MapBlock.lines b.others ++ tail) (k + 7)).map fun s =>
        { e with startDATA := lilu_strtou s, endDATA := b.text.stop.value }

theorem advance_append (u v : CString) (n : ℕ) : advance (u ++ v) (u.length + n) = advance v n := by
  simp [advance]

/-- The string behind the first bytes. -/
theorem advance_of_eq {s u v : CString} {n : ℕ} (hs : s = u ++ v) (hn : n = u.length) :
    advance s n = some v := by
  rw [hs, hn, ← Nat.add_zero u.length, advance_append]
  simp [advance]

namespace MapBlock

variable (b) (tail)

/-- The lines of the segments behind the text segment, and the rest of the map. -/
def rest : CString :=
  lines b.segments ++ tail

/-- What is behind a path: the line of the text segment, and the rest. -/
theorem behind_append : b.behind ++ tail = [10, 9] ++ nameTEXT ++ [9] ++ b.text.render ++
    b.rest tail := by
  simp [behind, rest, lines, textLine]

/-- The text from the two last letters of `__TEXT` on, where the data segment is looked for. -/
theorem drop_behind : (b.behind ++ tail).drop 6 = [88, 84, 9] ++ b.text.render ++ b.rest tail := by
  rw [behind_append]
  rfl

theorem strstr_text : strstr (b.behind ++ tail) nameTEXT 6 = some 2 := by
  have hsplit : b.behind ++ tail =
      [10, 9] ++ (nameTEXT ++ (9 :: b.text.render ++ b.rest tail)) := by
    simp [behind_append]
  rw [hsplit]
  exact Util.strstr_at (show nameTEXT = 95 :: _ from rfl) (by decide)

/-- The arrow of the text segment. -/
theorem strstr_arrow : strstr ((b.behind ++ tail).drop 6) arrowText 2 =
    some (6 + b.text.start.digits.length) := by
  have hsplit : (b.behind ++ tail).drop 6 = ([88, 84, 9] ++ b.text.start.render ++ [32]) ++
      (arrowText ++ (32 :: b.text.stop.render ++ b.rest tail)) := by
    simp [drop_behind, Range.render, arrowSpaced, arrowText]
  have hno : (45 : UInt8) ∉ [88, 84, 9] ++ b.text.start.render ++ [32] := by
    simp [Address.not_mem_render (show hexDigit? 45 = none by decide)]
  rw [hsplit]
  refine (Util.strstr_at (show arrowText = 45 :: _ from rfl) hno).trans ?_
  simp [Address.render]
  omega

/-- The same arrow is found when it is looked for again. -/
theorem strstr_arrow_again : strstr ((b.behind ++ tail).drop 12) arrowText 2 =
    some b.text.start.digits.length := by
  obtain ⟨c, l, hdigits⟩ := List.exists_cons_of_ne_nil b.text.start.nonempty
  have hsplit : (b.behind ++ tail).drop 12 = (l ++ [32]) ++
      (arrowText ++ (32 :: b.text.stop.render ++ b.rest tail)) := by
    have hdrop : (b.behind ++ tail).drop 12 = ((b.behind ++ tail).drop 6).drop 6 := by
      rw [List.drop_drop]
    rw [hdrop, drop_behind]
    simp [Range.render, Address.render, arrowSpaced, arrowText, hdigits]
  have hno : (45 : UInt8) ∉ l ++ [32] := by
    have hl := Address.not_mem_digits (a := b.text.start) (show hexDigit? 45 = none by decide)
    rw [hdigits, List.mem_cons, not_or] at hl
    simp [hl.2]
  rw [hsplit]
  refine (Util.strstr_at (show arrowText = 45 :: _ from rfl) hno).trans ?_
  simp [hdigits]

theorem advance_start : advance (b.behind ++ tail) (2 + 6 + 1) =
    some (b.text.start.render ++ (arrowSpaced ++ b.text.stop.render ++ b.rest tail)) := by
  refine advance_of_eq (u := [10, 9] ++ nameTEXT ++ [9]) ?_ rfl
  simp [behind_append, Range.render]

theorem advance_stop {n : ℕ} (hn : n = 15 + b.text.start.digits.length) :
    advance (b.behind ++ tail) n = some (b.text.stop.render ++ b.rest tail) := by
  refine advance_of_eq (u := [10, 9] ++ nameTEXT ++ [9] ++ b.text.start.render ++ arrowSpaced) ?_ ?_
  · simp [behind_append, Range.render]
  · simp [hn, Address.render, arrowSpaced, nameTEXT]
    omega

/-- The data segment is looked for in the rest. -/
theorem strstr_data : strstr ((b.behind ++ tail).drop 6) nameDATA 6 =
    (strstr (b.rest tail) nameDATA 6).map ((3 + b.text.render.length) + ·) := by
  have hno : (95 : UInt8) ∉ [88, 84, 9] ++ b.text.render := by
    simp [Range.not_mem_render (show hexDigit? 95 = none by decide) (by decide) (by decide)]
  rw [drop_behind]
  refine (Util.strstr_append (show nameDATA = 95 :: _ from rfl) hno).trans ?_
  rw [List.length_append]
  rfl

/-- A number in the rest. -/
theorem advance_rest (n : ℕ) : advance (b.behind ++ tail) (9 + b.text.render.length + n) =
    advance (b.rest tail) n := by
  have hlen : ([10, 9] ++ nameTEXT ++ [9] ++ b.text.render).length = 9 + b.text.render.length := by
    simp [nameTEXT]
    omega
  rw [behind_append, ← hlen, advance_append]

variable {b} {tail}

theorem follows_rest (h : Follows tail) : Follows (b.rest tail) :=
  follows_lines _ h

end MapBlock

/-- No line begins with a digit. -/
theorem Follows.not_hex (h : Follows tail) : ∀ c ∈ tail.head?, hexDigit? c = none := by
  intro c hc
  rw [h c hc]
  decide

/-- The first address of a range, which an arrow follows. -/
theorem Range.lilu_strtou_start (r : Range) (tail : CString) :
    lilu_strtou (r.start.render ++ (arrowSpaced ++ r.stop.render ++ tail)) = r.start.value := by
  refine lilu_strtou_render _ fun c hc => ?_
  rw [← Option.some.inj hc]
  decide

namespace MapBlock

variable {b : MapBlock} {tail : CString}

/-- The second address of the text segment, which a line follows. -/
theorem lilu_strtou_stop (htail : Follows tail) :
    lilu_strtou (b.text.stop.render ++ b.rest tail) = b.text.stop.value :=
  lilu_strtou_render _ (follows_rest htail).not_hex

/-- Without a data segment only other lines are left. -/
theorem rest_of_none (hdata : b.data = none) : b.rest tail = lines b.others ++ tail := by
  rw [rest, segments, hdata]
  rfl

theorem rest_of_some {d : Range} (hdata : b.data = some d) : b.rest tail =
    [10, 9] ++ (nameDATA ++ (9 :: d.render ++ (lines b.others ++ tail))) := by
  simp [rest, segments, lines, hdata]

/-- The block's own data segment is the first one in the rest. -/
theorem strstr_own {d : Range} (hdata : b.data = some d) :
    strstr (b.rest tail) nameDATA 6 = some 2 := by
  rw [rest_of_some hdata]
  exact Util.strstr_at (show nameDATA = 95 :: _ from rfl) (by decide)

theorem advance_own {d : Range} (hdata : b.data = some d) : advance (b.rest tail) (2 + 7) =
    some (d.start.render ++ (arrowSpaced ++ d.stop.render ++ (lines b.others ++ tail))) := by
  refine advance_of_eq (u := [10, 9] ++ nameDATA ++ [9]) ?_ rfl
  simp [rest_of_some hdata, Range.render]

end MapBlock

/-- **What is read behind a path** in a map: the block's entry, and how far the loop goes on, which
is within the line of the text segment. -/
theorem readBlock_block (b : MapBlock) (htail : Follows tail) (e : MapEntry) :
    ∃ i, 0 < i ∧ i ≤ 12 ∧
      readBlock (b.behind ++ tail) e = (b.read tail e).map fun e' => (i, e', true) := by
  have hstop := b.lilu_strtou_stop htail
  -- both searches of an arrow find that of the text segment
  have hadvance : advance (b.behind ++ tail) (6 + (6 + b.text.start.digits.length) + 2 + 1) =
      some (b.text.stop.render ++ b.rest tail) := b.advance_stop tail (by omega)
  have hadvance' : advance (b.behind ++ tail) (12 + b.text.start.digits.length + 2 + 1) =
      some (b.text.stop.render ++ b.rest tail) := b.advance_stop tail (by omega)
  have hdataAt : ∀ k, advance (b.behind ++ tail) (6 + (3 + b.text.render.length + k) + 6 + 1) =
      advance (b.rest tail) (k + 7) := fun k => by
    rw [← b.advance_rest]
    congr 1
    omega
  rw [readBlock, b.strstr_text]
  dsimp only
  rw [b.strstr_arrow]
  dsimp only
  rw [b.advance_start, Option.bind_some, hadvance, Option.bind_some, b.text.lilu_strtou_start,
    hstop, b.strstr_data]
  cases hdata : b.data with
  | none =>
    rw [MapBlock.read, hdata, ← MapBlock.rest_of_none hdata]
    dsimp only
    cases strstr (b.rest tail) nameDATA 6 with
    | none => exact ⟨6, by omega, by omega, rfl⟩
    | some k =>
      refine ⟨12, by omega, le_rfl, ?_⟩
      simp only [Option.map_some]
      rw [b.strstr_arrow_again]
      dsimp only
      rw [hdataAt, hadvance']
      cases advance (b.rest tail) (k + 7) with
      | none => rfl
      | some s =>
        rw [Option.bind_some, Option.bind_some, hstop]
        rfl
  | some d =>
    refine ⟨12, by omega, le_rfl, ?_⟩
    rw [MapBlock.read, hdata, MapBlock.strstr_own hdata]
    simp only [Option.map_some]
    rw [b.strstr_arrow_again]
    dsimp only
    rw [hdataAt, MapBlock.advance_own hdata, hadvance', Option.bind_some, Option.bind_some,
      d.lilu_strtou_start, hstop]

/-! ## From block to block -/

/-- What a block does to the entries and their number: it fills the first entry of its path. -/
def mapBlock (tail : CString) (b : MapBlock) (s : List MapEntry × ℕ) : Option (List MapEntry × ℕ) :=
  match s.1.findIdx? (·.filename == some b.path) with
  | none => some s
  | some k => (s.1[k]?.bind (b.read tail)).map fun e => (s.1.set k e, s.2 + 1)

/-- What the blocks of a map do, one after the other. -/
def mapBlocks : List MapBlock → List MapEntry × ℕ → Option (List MapEntry × ℕ)
  | [], s => some s
  | b :: blocks, s => (mapBlock (renderMap blocks) b s).bind (mapBlocks blocks)

/-- The entries have paths, which are prefixes of no other path in the map. -/
structure Asks (mapEntries : List MapEntry) (blocks : List MapBlock) : Prop where
  isPath : ∀ e ∈ mapEntries, ∀ f, e.filename = some f → IsPath f
  whole : ∀ e ∈ mapEntries, ∀ f, e.filename = some f → ∀ b ∈ blocks, f <+: b.path → b.path = f

variable {mapEntries : List MapEntry} {blocks : List MapBlock} {n : ℕ}

theorem names_iff {f s : CString} (hf : e.filename = some f) : e.names s = true ↔ f <+: s := by
  rw [MapEntry.names, hf]
  dsimp only
  rw [beq_iff_eq, e.sized f hf, List.take_length, List.prefix_iff_eq_take, eq_comm]

/-- A path in front of a newline. -/
theorem prefix_newline_iff {f path s : CString} (hf : 10 ∉ f) :
    f <+: path ++ 10 :: s ↔ f <+: path := by
  constructor
  · intro h
    rcases List.prefix_or_prefix_of_prefix h (List.prefix_append path (10 :: s)) with hle | ⟨u, rfl⟩
    · exact hle
    · -- what is behind the path would begin with the newline
      rw [List.prefix_append_right_inj] at h
      cases u with
      | nil => rw [List.append_nil]
      | cons c u =>
        obtain ⟨rfl, -⟩ := List.cons_prefix_cons.mp h
        exact absurd (List.mem_append_right path List.mem_cons_self) hf
  · exact fun h => h.trans (List.prefix_append _ _)

/-- Of the line of a segment no path is asked. -/
theorem Asks.findIdx?_segment (h : Asks mapEntries blocks) (s : CString) :
    mapEntries.findIdx? (·.names (9 :: s)) = none := by
  rw [List.findIdx?_eq_none_iff]
  intro e he
  cases hf : e.filename with
  | none => rw [MapEntry.names, hf]
  | some f =>
    rw [Bool.eq_false_iff, Ne, names_iff hf]
    intro hle
    have hpath := h.isPath e he f hf
    obtain ⟨c, u, rfl⟩ := List.exists_cons_of_ne_nil hpath.nonempty
    obtain ⟨rfl, -⟩ := List.cons_prefix_cons.mp hle
    exact hpath.tab rfl

/-- A block is of the first entry with its path. -/
theorem Asks.findIdx?_block (h : Asks mapEntries blocks) (hb : b ∈ blocks) (s : CString) :
    mapEntries.findIdx? (·.names (b.path ++ 10 :: s)) =
      mapEntries.findIdx? (·.filename == some b.path) := by
  refine Keyed.findIdx?_congr fun e he => ?_
  cases hf : e.filename with
  | none => rw [MapEntry.names, hf]; rfl
  | some f =>
    rw [Bool.eq_iff_iff, names_iff hf, prefix_newline_iff (h.isPath e he f hf).newline, beq_iff_eq,
      Option.some.injEq]
    exact ⟨fun hle => (h.whole e he f hf b hb hle).symm, fun heq => heq ▸ List.prefix_rfl⟩

/-! ## The loop over the lines -/

/-- Bytes within a line are passed over. -/
theorem comesTo_append {u : CString} (hu : 10 ∉ u) (v : CString) :
    ComesTo mapTurn ⟨u ++ v, mapEntries, n⟩ ⟨v, mapEntries, n⟩ := by
  induction u with
  | nil => exact .start
  | cons c u ih =>
    rw [List.mem_cons, not_or] at hu
    have hturn : mapTurn ⟨c :: u ++ v, mapEntries, n⟩ = .again ⟨u ++ v, mapEntries, n⟩ := by
      rw [mapTurn]
      exact if_neg (Ne.symm hu.1)
    exact (ih hu.2).of_again hturn

/-- A line that no path is asked of is passed over. -/
theorem comesTo_line {u : CString} (hu : 10 ∉ u) (v : CString)
    (hnone : mapEntries.findIdx? (·.names (u ++ v)) = none) :
    ComesTo mapTurn ⟨10 :: u ++ v, mapEntries, n⟩ ⟨v, mapEntries, n⟩ := by
  have hturn : mapTurn ⟨10 :: u ++ v, mapEntries, n⟩ = .again ⟨u ++ v, mapEntries, n⟩ := by
    rw [mapTurn]
    dsimp only [List.cons_append]
    rw [if_pos rfl, hnone]
  exact (comesTo_append hu v).of_again hturn

/-- The lines of segments are passed over. -/
theorem Asks.comesTo_lines (h : Asks mapEntries blocks) {l : List CString} (hl : ∀ s ∈ l, 10 ∉ s)
    (v : CString) :
    ComesTo mapTurn ⟨MapBlock.lines l ++ v, mapEntries, n⟩ ⟨v, mapEntries, n⟩ := by
  induction l with
  | nil => exact .start
  | cons s l ih =>
    have hs : 10 ∉ 9 :: s := by simp [hl s List.mem_cons_self]
    have hline : MapBlock.lines (s :: l) ++ v = 10 :: (9 :: s) ++ (MapBlock.lines l ++ v) := by
      simp [MapBlock.lines]
    rw [hline]
    exact (comesTo_line hs _ (h.findIdx?_segment _)).trans
      (ih fun t ht => hl t (List.mem_cons_of_mem s ht))

theorem MapBlock.newline_textLine (b : MapBlock) : 10 ∉ b.textLine := by
  have hrender := Range.not_mem_render (r := b.text) (c := 10) (by decide) (by decide) (by decide)
  have hname : (10 : UInt8) ∉ nameTEXT := by decide
  simp [textLine, hrender, hname]

theorem MapBlock.newline_segments (b : MapBlock) : ∀ s ∈ b.segments, 10 ∉ s := by
  intro s hs
  rcases List.mem_append.mp hs with hs | hs
  · obtain ⟨r, -, rfl⟩ := Option.map_eq_some_iff.mp (Option.mem_toList.mp hs)
    have hrender := Range.not_mem_render (r := r) (c := 10) (by decide) (by decide) (by decide)
    have hname : (10 : UInt8) ∉ nameDATA := by decide
    simp [hrender, hname]
  · exact b.newline s hs

/-- A block whose path no entry has is passed over. -/
theorem Asks.comesTo_block (h : Asks mapEntries blocks) (hb : b ∈ blocks)
    (hnone : mapEntries.findIdx? (·.filename == some b.path) = none) (tail : CString) :
    ComesTo mapTurn ⟨b.render ++ tail, mapEntries, n⟩ ⟨tail, mapEntries, n⟩ := by
  have hlines : ∀ s ∈ b.textLine :: b.segments, 10 ∉ s := by
    intro s hs
    rcases List.mem_cons.mp hs with rfl | hs
    · exact b.newline_textLine
    · exact b.newline_segments s hs
  have hbehind : b.behind ++ tail =
      10 :: (9 :: b.textLine ++ (MapBlock.lines b.segments ++ tail)) := by
    simp [MapBlock.behind, MapBlock.lines]
  have hrender : b.render ++ tail = 10 :: b.path ++ (b.behind ++ tail) := by
    simp [MapBlock.render]
  rw [hrender]
  refine (comesTo_line b.isPath.newline _ ?_).trans (h.comesTo_lines hlines tail)
  rw [hbehind, h.findIdx?_block hb, hnone]

theorem MapBlock.filename_read {e' : MapEntry} (h : b.read tail e = some e') :
    e'.filename = e.filename := by
  unfold MapBlock.read at h
  dsimp only at h
  split at h
  · cases h
    rfl
  · split at h
    · cases h
      rfl
    · obtain ⟨s, -, rfl⟩ := Option.map_eq_some_iff.mp h
      rfl

theorem Asks.set (h : Asks mapEntries blocks) {k : ℕ} {e' : MapEntry} (hk : mapEntries[k]? = some e)
    (hname : e'.filename = e.filename) : Asks (mapEntries.set k e') blocks := by
  have hmem : ∀ d ∈ mapEntries.set k e', ∃ d' ∈ mapEntries, d'.filename = d.filename := by
    intro d hd
    rcases List.mem_or_eq_of_mem_set hd with hd | rfl
    · exact ⟨d, hd, rfl⟩
    · exact ⟨e, List.mem_of_getElem? hk, hname.symm⟩
  constructor
  · intro d hd f hf
    obtain ⟨d', hd', hname'⟩ := hmem d hd
    exact h.isPath d' hd' f (hname'.trans hf)
  · intro d hd f hf
    obtain ⟨d', hd', hname'⟩ := hmem d hd
    exact h.whole d' hd' f (hname'.trans hf)

/-- The loop is at a block whose path an entry has. -/
theorem Asks.requests_block (h : Asks mapEntries blocks) (hb : b ∈ blocks) {k : ℕ}
    (hk : mapEntries.findIdx? (·.filename == some b.path) = some k) (he : mapEntries[k]? = some e) :
    MapState.Requests ⟨b.render ++ tail, mapEntries, n⟩ k e (b.path ++ (b.behind ++ tail))
      (b.behind ++ tail) := by
  have hname : e.filename = some b.path := by
    obtain ⟨hlt, hpath, -⟩ := List.findIdx?_eq_some_iff_getElem.mp hk
    obtain rfl := Option.some.inj ((List.getElem?_eq_getElem hlt).symm.trans he)
    exact beq_iff_eq.mp hpath
  have hline : b.behind ++ tail = 10 :: (9 :: b.textLine ++ b.rest tail) := by
    simp [MapBlock.behind, MapBlock.rest, MapBlock.lines]
  constructor
  · simp [MapBlock.render]
  · change mapEntries.findIdx? (·.names (b.path ++ (b.behind ++ tail))) = some k
    rw [hline, h.findIdx?_block hb, hk]
  · exact he
  · rw [e.sized b.path hname, List.drop_left]

/-- From within the line of the text segment the loop passes over the rest of the block. -/
theorem Asks.comesTo_behind (h : Asks mapEntries blocks) {i : ℕ} (hpos : 0 < i) (hle : i ≤ 12) :
    ComesTo mapTurn ⟨(b.behind ++ tail).drop i, mapEntries, n⟩ ⟨tail, mapEntries, n⟩ := by
  obtain ⟨j, rfl⟩ := Nat.exists_eq_add_of_lt hpos
  have hin : j ≤ (9 :: b.textLine).length := by
    simp [MapBlock.textLine, nameTEXT, Range.render, arrowSpaced, Address.render]
    omega
  have hline : b.behind ++ tail = 10 :: (9 :: b.textLine ++ b.rest tail) := by
    simp [MapBlock.behind, MapBlock.rest, MapBlock.lines]
  have hptr : (b.behind ++ tail).drop (0 + j + 1) = (9 :: b.textLine).drop j ++ b.rest tail := by
    rw [hline, Nat.zero_add, List.drop_succ_cons, List.drop_append_of_le_length hin]
  have hnewline : 10 ∉ (9 :: b.textLine).drop j := fun hmem => by
    have hmem := List.mem_of_mem_drop hmem
    simp [b.newline_textLine] at hmem
  rw [hptr]
  exact (comesTo_append hnewline _).trans (h.comesTo_lines b.newline_segments tail)

/-- **A block whose path an entry has** is read, and passed over, if its numbers are in the text. -/
theorem Asks.requested_block (h : Asks mapEntries blocks) (hb : b ∈ blocks) {k : ℕ}
    (hk : mapEntries.findIdx? (·.filename == some b.path) = some k) (he : mapEntries[k]? = some e)
    (htail : Follows tail) :
    b.read tail e = none ∧ mapTurn ⟨b.render ++ tail, mapEntries, n⟩ = .leave none ∨
      ∃ e', b.read tail e = some e' ∧ ComesTo mapTurn ⟨b.render ++ tail, mapEntries, n⟩
        ⟨tail, mapEntries.set k e', n + 1⟩ := by
  have hat : MapState.Requests ⟨b.render ++ tail, mapEntries, n⟩ k e _ (b.behind ++ tail) :=
    h.requests_block hb hk he
  have hturn := hat.mapTurn_eq
  obtain ⟨i, hpos, hle, hread⟩ := readBlock_block b htail e
  rw [hread] at hturn
  cases hown : b.read tail e with
  | none =>
    rw [hown] at hturn
    exact .inl ⟨rfl, hturn⟩
  | some e' =>
    rw [hown] at hturn
    have hasks := h.set he (MapBlock.filename_read hown)
    exact .inr ⟨e', rfl, (hasks.comesTo_behind hpos hle).of_again hturn⟩

/-- **A map is taken block by block.** -/
theorem loop_blocks (h : Asks mapEntries blocks) :
    ∃ fuel, loop mapTurn fuel ⟨renderMap blocks, mapEntries, n⟩ =
      some (mapBlocks blocks (mapEntries, n)) := by
  induction blocks generalizing mapEntries n with
  | nil => exact ⟨1, loop_succ_leave (mapTurn_nil rfl) 0⟩
  | cons b blocks ih =>
    have htail : Asks mapEntries blocks :=
      ⟨h.isPath, fun e he f hf c hc => h.whole e he f hf c (List.mem_cons_of_mem b hc)⟩
    have hrender : renderMap (b :: blocks) = b.render ++ renderMap blocks := List.flatMap_cons
    rw [hrender, mapBlocks, mapBlock]
    dsimp only
    cases hk : mapEntries.findIdx? (·.filename == some b.path) with
    | none =>
      exact (h.comesTo_block List.mem_cons_self hk _).loop_iff.mpr (ih htail)
    | some k =>
      obtain ⟨hlt, -, -⟩ := List.findIdx?_eq_some_iff_getElem.mp hk
      have he : mapEntries[k]? = some mapEntries[k] := List.getElem?_eq_getElem hlt
      dsimp only
      rw [he, Option.bind_some]
      rcases h.requested_block (n := n) List.mem_cons_self hk he (follows_renderMap blocks) with
        ⟨hnone, hturn⟩ | ⟨e', hsome, hcomes⟩
      · rw [hnone]
        exact ⟨1, loop_succ_leave hturn 0⟩
      · rw [hsome]
        exact hcomes.loop_iff.mpr (ih (htail.set he (MapBlock.filename_read hsome)))

/-! ## Own addresses -/

/-- **The addresses of a block are its own**: its data segment ends with its text segment. If it has
none, then no name like it comes in the rest of the map, or what is read there is zero. -/
def MapBlock.Kept (b : MapBlock) (tail : CString) : Prop :=
  match b.data with
  | some d => d.stop.value = b.text.stop.value
  | none => ∀ k, strstr (MapBlock.lines b.others ++ tail) nameDATA 6 = some k →
      b.text.stop.value = 0 ∧
        ∃ s, advance (MapBlock.lines b.others ++ tail) (k + 7) = some s ∧ lilu_strtou s = 0

theorem read_eq_own_iff {f : CString} :
    b.read tail (.ofPath f) = some (b.own (.ofPath f)) ↔ b.Kept tail := by
  unfold MapBlock.read MapBlock.Kept MapBlock.own
  dsimp only
  cases b.data with
  | some d => simp [eq_comm]
  | none =>
    dsimp only
    cases strstr (MapBlock.lines b.others ++ tail) nameDATA 6 with
    | none => simp [MapEntry.ofPath]
    | some k =>
      dsimp only
      rw [Option.map_eq_some_iff]
      constructor
      · rintro ⟨s, hs, heq⟩ k' hk
        obtain rfl := Option.some.inj hk
        exact ⟨congrArg MapEntry.endDATA heq, s, hs, congrArg MapEntry.startDATA heq⟩
      · intro h
        obtain ⟨hstop, s, hs, hstart⟩ := h k rfl
        exact ⟨s, hs, by simp [hstop, hstart]⟩

theorem MapBlock.Kept.isSome_read (h : b.Kept tail) (e : MapEntry) : (b.read tail e).isSome := by
  unfold MapBlock.Kept at h
  unfold MapBlock.read
  dsimp only
  cases hdata : b.data with
  | some d => rfl
  | none =>
    rw [hdata] at h
    dsimp only at h ⊢
    cases hfound : strstr (MapBlock.lines b.others ++ tail) nameDATA 6 with
    | none => rfl
    | some k =>
      obtain ⟨-, s, hs, -⟩ := h k hfound
      simp [hs]

/-! ## The entries in the end -/

variable {requests : List CString} {mapEntries' : List MapEntry} {n' : ℕ}

/-- Blocks are looked up by the requested paths, which the entries keep. -/
theorem findIdx?_filename (hnames : mapEntries.map (·.filename) = requests.map some) (f : CString) :
    mapEntries.findIdx? (·.filename == some f) = requests.findIdx? (· == f) := by
  have hmap := congrArg (List.findIdx? (· == some f)) hnames
  rw [List.findIdx?_map, List.findIdx?_map] at hmap
  exact hmap.trans (Keyed.findIdx?_congr fun g _ => by simp)

/-- **A block** fills the first entry of its path, if there is one. -/
theorem mapBlock_cases (hnames : mapEntries.map (·.filename) = requests.map some)
    (b : MapBlock) (tail : CString) (n : ℕ) :
    b.path ∉ requests ∧ mapBlock tail b (mapEntries, n) = some (mapEntries, n) ∨
      ∃ k e, requests.findIdx? (· == b.path) = some k ∧ mapEntries[k]? = some e ∧
        mapBlock tail b (mapEntries, n) =
          (b.read tail e).map fun e' => (mapEntries.set k e', n + 1) := by
  rw [mapBlock, ← findIdx?_filename hnames]
  dsimp only
  cases hk : mapEntries.findIdx? (·.filename == some b.path) with
  | none =>
    refine .inl ⟨fun hmem => ?_, rfl⟩
    rw [findIdx?_filename hnames, List.findIdx?_eq_none_iff] at hk
    exact absurd (hk b.path hmem) (by simp)
  | some k =>
    obtain ⟨hlt, -, -⟩ := List.findIdx?_eq_some_iff_getElem.mp hk
    refine .inr ⟨k, mapEntries[k], rfl, List.getElem?_eq_getElem hlt, ?_⟩
    dsimp only
    rw [List.getElem?_eq_getElem hlt, Option.bind_some]

/-- The paths of the entries and the number of those that were found. -/
theorem mapBlocks_names (hnames : mapEntries.map (·.filename) = requests.map some)
    (h : mapBlocks blocks (mapEntries, n) = some (mapEntries', n')) :
    mapEntries'.map (·.filename) = requests.map some ∧
      n' = n + (blocks.filter fun b => requests.contains b.path).length := by
  induction blocks generalizing mapEntries n with
  | nil =>
    cases h
    exact ⟨hnames, rfl⟩
  | cons b blocks ih =>
    rw [mapBlocks] at h
    rcases mapBlock_cases hnames b (renderMap blocks) n with
      ⟨hnot, hblock⟩ | ⟨k, e, hk, he, hblock⟩ <;>
      rw [hblock] at h
    · rw [List.filter_cons, if_neg (by simpa using hnot)]
      exact ih hnames h
    · obtain ⟨s, hs, h⟩ := Option.bind_eq_some_iff.mp h
      obtain ⟨e', hread, rfl⟩ := Option.map_eq_some_iff.mp hs
      have hmem : b.path ∈ requests := List.mem_of_getElem? (Keyed.getElem?_of_findIdx? hk)
      have hset := Keyed.map_set he (MapBlock.filename_read hread)
      obtain ⟨hnames', hcount⟩ := ih (hset.trans hnames) h
      refine ⟨hnames', ?_⟩
      rw [List.filter_cons, if_pos (by simpa using hmem), List.length_cons, hcount]
      omega

/-- An entry that is not the first of a block's path stays as it is. -/
theorem mapBlocks_other (hnames : mapEntries.map (·.filename) = requests.map some)
    (h : mapBlocks blocks (mapEntries, n) = some (mapEntries', n')) {k : ℕ}
    (hk : ∀ b ∈ blocks, requests.findIdx? (· == b.path) ≠ some k) :
    mapEntries'[k]? = mapEntries[k]? := by
  induction blocks generalizing mapEntries n with
  | nil =>
    cases h
    rfl
  | cons b blocks ih =>
    have hblocks : ∀ c ∈ blocks, requests.findIdx? (· == c.path) ≠ some k := fun c hc =>
      hk c (List.mem_cons_of_mem b hc)
    rw [mapBlocks] at h
    rcases mapBlock_cases hnames b (renderMap blocks) n with
      ⟨-, hblock⟩ | ⟨j, e, hj, he, hblock⟩ <;>
      rw [hblock] at h
    · exact ih hnames h hblocks
    · obtain ⟨s, hs, h⟩ := Option.bind_eq_some_iff.mp h
      obtain ⟨e', hread, rfl⟩ := Option.map_eq_some_iff.mp hs
      have hset := Keyed.map_set he (MapBlock.filename_read hread)
      have hne : j ≠ k := fun heq => hk b List.mem_cons_self (heq ▸ hj)
      rw [ih (hset.trans hnames) h hblocks, List.getElem?_set_ne hne]

/-- **The first entry of a block's path** is read there, if no other block has the path. -/
theorem mapBlocks_first (hnames : mapEntries.map (·.filename) = requests.map some)
    {pre post : List MapBlock}
    (h : mapBlocks (pre ++ b :: post) (mapEntries, n) = some (mapEntries', n')) {k : ℕ}
    (hk : requests.findIdx? (· == b.path) = some k) (hpre : ∀ c ∈ pre, c.path ≠ b.path)
    (hpost : ∀ c ∈ post, c.path ≠ b.path) (he : mapEntries[k]? = some e) :
    ∃ e', b.read (renderMap post) e = some e' ∧ mapEntries'[k]? = some e' := by
  have hother : ∀ c : MapBlock, c.path ≠ b.path → requests.findIdx? (· == c.path) ≠ some k := by
    intro c hne hc
    have hpath := (Keyed.getElem?_of_findIdx? hc).symm.trans (Keyed.getElem?_of_findIdx? hk)
    exact hne (Option.some.inj hpath)
  induction pre generalizing mapEntries n with
  | nil =>
    rw [List.nil_append, mapBlocks] at h
    rcases mapBlock_cases hnames b (renderMap post) n with ⟨hnot, -⟩ | ⟨j, d, hj, hd, hblock⟩
    · exact absurd (List.mem_of_getElem? (Keyed.getElem?_of_findIdx? hk)) hnot
    · obtain rfl : k = j := Option.some.inj (hk.symm.trans hj)
      obtain rfl : e = d := Option.some.inj (he.symm.trans hd)
      rw [hblock] at h
      obtain ⟨s, hs, h⟩ := Option.bind_eq_some_iff.mp h
      obtain ⟨e', hread, rfl⟩ := Option.map_eq_some_iff.mp hs
      have hset := Keyed.map_set he (MapBlock.filename_read hread)
      refine ⟨e', hread, ?_⟩
      rw [mapBlocks_other (hset.trans hnames) h fun c hc => hother c (hpost c hc),
        List.getElem?_set_self (List.getElem?_eq_some_iff.mp he).1]
  | cons c pre ih =>
    have hpre' : ∀ d ∈ pre, d.path ≠ b.path := fun d hd => hpre d (List.mem_cons_of_mem c hd)
    rw [List.cons_append, mapBlocks] at h
    rcases mapBlock_cases hnames c (renderMap (pre ++ b :: post)) n with ⟨-, hblock⟩ |
      ⟨j, d, hj, hd, hblock⟩ <;> rw [hblock] at h
    · exact ih hnames h hpre' he
    · obtain ⟨s, hs, h⟩ := Option.bind_eq_some_iff.mp h
      obtain ⟨d', hread, rfl⟩ := Option.map_eq_some_iff.mp hs
      have hset := Keyed.map_set hd (MapBlock.filename_read hread)
      have hne : j ≠ k := fun heq => hother c (hpre c List.mem_cons_self) (heq ▸ hj)
      exact ih (hset.trans hnames) h hpre' ((List.getElem?_set_ne hne).trans he)

/-- All blocks are read if those are that are requested. -/
theorem isSome_mapBlocks (hnames : mapEntries.map (·.filename) = requests.map some)
    (h : ∀ pre b post, blocks = pre ++ b :: post → b.path ∈ requests →
      ∀ e, (b.read (renderMap post) e).isSome) :
    (mapBlocks blocks (mapEntries, n)).isSome := by
  induction blocks generalizing mapEntries n with
  | nil => rfl
  | cons b blocks ih =>
    have hblocks : ∀ pre c post, blocks = pre ++ c :: post → c.path ∈ requests →
        ∀ e, (c.read (renderMap post) e).isSome := fun pre c post hsplit =>
      h (b :: pre) c post (by rw [hsplit, List.cons_append])
    rw [mapBlocks]
    rcases mapBlock_cases hnames b (renderMap blocks) n with
      ⟨-, hblock⟩ | ⟨k, e, hk, he, hblock⟩ <;>
      rw [hblock]
    · exact ih hnames hblocks
    · have hmem : b.path ∈ requests := List.mem_of_getElem? (Keyed.getElem?_of_findIdx? hk)
      obtain ⟨e', hread⟩ := Option.isSome_iff_exists.mp (h [] b blocks rfl hmem e)
      rw [hread]
      exact ih ((Keyed.map_set he (MapBlock.filename_read hread)).trans hnames) hblocks

/-! ## The map -/

/-- The requested paths that are in the map. -/
def occurring (blocks : List MapBlock) (requests : List CString) : List CString :=
  requests.filter fun f => (blocks.map (·.path)).contains f

/-- The paths of the map that are requested. -/
def requestedPaths (blocks : List MapBlock) (requests : List CString) : List CString :=
  (blocks.filter fun b => requests.contains b.path).map (·.path)

theorem mem_requestedPaths_iff {f : CString} :
    f ∈ requestedPaths blocks requests ↔ f ∈ occurring blocks requests := by
  simp only [requestedPaths, occurring, List.mem_map, List.mem_filter, List.contains_iff_mem]
  constructor
  · rintro ⟨b, ⟨hb, hf⟩, rfl⟩
    exact ⟨hf, b, hb, rfl⟩
  · rintro ⟨hf, b, hb, rfl⟩
    exact ⟨b, ⟨hb, hf⟩, rfl⟩

theorem nodup_requestedPaths (honce : ∀ f ∈ requests, (blocks.map (·.path)).count f ≤ 1) :
    (requestedPaths blocks requests).Nodup := by
  rw [List.nodup_iff_count_le_one]
  intro f
  by_cases hf : f ∈ requestedPaths blocks requests
  · have hle := ((List.filter_sublist (l := blocks)
      (p := fun b => requests.contains b.path)).map (·.path)).count_le f
    exact hle.trans (honce f (List.mem_of_mem_filter (mem_requestedPaths_iff.mp hf)))
  · rw [List.count_eq_zero_of_not_mem hf]
    exact Nat.zero_le 1

theorem nodup_occurring_iff : (occurring blocks requests).Nodup ↔
    ∀ b ∈ blocks, b.path ∈ requests → requests.count b.path = 1 := by
  have hsame : ∀ f ∈ blocks.map (·.path), (occurring blocks requests).count f =
      requests.count f := fun f hf => List.count_filter (List.contains_iff_mem.mpr hf)
  rw [List.nodup_iff_count_le_one]
  constructor
  · intro h b hb hreq
    have hle := h b.path
    rw [hsame _ (List.mem_map_of_mem hb)] at hle
    exact le_antisymm hle (List.count_pos_iff.mpr hreq)
  · intro h f
    by_cases hf : f ∈ occurring blocks requests
    · obtain ⟨b, hb, rfl⟩ := List.mem_map.mp (mem_requestedPaths_iff.mpr hf)
      obtain ⟨hb, hreq⟩ := List.mem_filter.mp hb
      rw [hsame _ (List.mem_map_of_mem hb), h b hb (List.contains_iff_mem.mp hreq)]
    · rw [List.count_eq_zero_of_not_mem hf]
      exact Nat.zero_le 1

/-- If no requested path is in the map twice, then they are requested once each if and only if there
are as many requests as paths. -/
theorem length_requestedPaths_iff (honce : ∀ f ∈ requests, (blocks.map (·.path)).count f ≤ 1) :
    (requestedPaths blocks requests).length = (occurring blocks requests).length ↔
      ∀ b ∈ blocks, b.path ∈ requests → requests.count b.path = 1 := by
  have hnodup := nodup_requestedPaths honce
  rw [← nodup_occurring_iff]
  constructor
  · intro hlen
    have hsub := List.subperm_of_subset hnodup fun f hf => mem_requestedPaths_iff.mp hf
    exact (hsub.perm_of_length_le hlen.ge).nodup_iff.mp hnodup
  · intro hocc
    apply List.Perm.length_eq
    apply (List.perm_ext_iff_of_nodup hnodup hocc).mpr
    exact fun f => mem_requestedPaths_iff

/-- What is requested once is at one index. -/
theorem findIdx?_of_count {f : CString} {k : ℕ} (hcount : requests.count f = 1)
    (hk : requests[k]? = some f) : requests.findIdx? (· == f) = some k := by
  obtain ⟨hlt, hget⟩ := List.getElem?_eq_some_iff.mp hk
  rw [List.findIdx?_eq_some_iff_getElem]
  refine ⟨hlt, beq_iff_eq.mpr hget, fun j hj heq => ?_⟩
  -- an earlier one would be another
  have hduplicate : List.Duplicate f requests := List.duplicate_iff_exists_distinct_get.mpr
    ⟨⟨j, hj.trans hlt⟩, ⟨k, hlt⟩, hj, (beq_iff_eq.mp heq).symm, hget.symm⟩
  have htwo := (List.duplicate_iff_sublist.mp hduplicate).count_le f
  rw [List.count_cons_self, List.count_cons_self, hcount] at htwo
  omega

/-- No other block has the path of a block that is there once. -/
theorem path_ne_of_count {pre post : List MapBlock}
    (h : ((pre ++ b :: post).map (·.path)).count b.path ≤ 1) :
    (∀ c ∈ pre, c.path ≠ b.path) ∧ ∀ c ∈ post, c.path ≠ b.path := by
  have hsum : (pre.map (·.path)).count b.path + (post.map (·.path)).count b.path = 0 := by
    rw [List.map_append, List.count_append, List.map_cons, List.count_cons_self] at h
    omega
  have hnot : ∀ l : List MapBlock, (l.map (·.path)).count b.path = 0 →
      ∀ c ∈ l, c.path ≠ b.path := by
    intro l hl c hc heq
    exact List.count_eq_zero.mp hl (heq ▸ List.mem_map_of_mem hc)
  exact ⟨hnot pre (by omega), hnot post (by omega)⟩

/-- Without entries the blocks do nothing. -/
theorem mapBlocks_nil (blocks : List MapBlock) (n : ℕ) :
    mapBlocks blocks ([], n) = some ([], n) := by
  induction blocks with
  | nil => rfl
  | cons b blocks ih => exact ih

/-- **What is returned** for a map is what its blocks make of the entries. -/
theorem mapAddresses_renderMap (h : Asks mapEntries blocks) (r : List MapEntry × ℕ) :
    (∃ fuel, mapAddresses (some (renderMap blocks)) mapEntries fuel = some (some r)) ↔
      mapBlocks blocks (mapEntries, 0) = some r := by
  cases mapEntries with
  | nil =>
    rw [mapBlocks_nil]
    exact ⟨fun ⟨_, hr⟩ => Option.some.inj hr, fun hr => ⟨0, congrArg some hr⟩⟩
  | cons e l =>
    have hloop : ∀ fuel, mapAddresses (some (renderMap blocks)) (e :: l) fuel =
        loop mapTurn fuel ⟨renderMap blocks, e :: l, 0⟩ := fun _ => rfl
    simp only [hloop]
    obtain ⟨fuel, hfuel⟩ := loop_blocks (n := 0) h
    constructor
    · rintro ⟨fuel', hfuel'⟩
      exact loop_unique hfuel hfuel'
    · intro hr
      exact ⟨fuel, hfuel.trans (congrArg some hr)⟩

/-- The entries of the requested paths, as the caller makes them. -/
theorem asks_ofPath (hpaths : ∀ f ∈ requests, IsPath f)
    (hwhole : ∀ f ∈ requests, ∀ b ∈ blocks, f <+: b.path → b.path = f) :
    Asks (requests.map .ofPath) blocks := by
  constructor
  · intro e he f hf
    obtain ⟨g, hg, rfl⟩ := List.mem_map.mp he
    exact Option.some.inj hf ▸ hpaths g hg
  · intro e he f hf b hb hle
    obtain ⟨g, hg, rfl⟩ := List.mem_map.mp he
    obtain rfl := Option.some.inj hf
    exact hwhole g hg b hb hle

/-- **The addresses of the map**: all requested paths that are in the map have the addresses of
their own blocks if and only if each of them is requested once, and its block's addresses are its
own. -/
theorem mapped_iff {blocks : List MapBlock} {requests : List CString}
    (hpaths : ∀ f ∈ requests, IsPath f)
    (hwhole : ∀ f ∈ requests, ∀ b ∈ blocks, f <+: b.path → b.path = f)
    (honce : ∀ f ∈ requests, (blocks.map (·.path)).count f ≤ 1) :
    (∃ fuel r, mapAddresses (some (renderMap blocks)) (requests.map .ofPath) fuel = some (some r) ∧
      Mapped blocks requests r) ↔
    ∀ pre b post, blocks = pre ++ b :: post → b.path ∈ requests →
      requests.count b.path = 1 ∧ b.Kept (renderMap post) := by
  have hnames : (requests.map MapEntry.ofPath).map (·.filename) = requests.map some := by
    rw [List.map_map]
    rfl
  have hasks := asks_ofPath hpaths hwhole
  have hentry : ∀ {k : ℕ} {f}, requests[k]? = some f →
      (requests.map MapEntry.ofPath)[k]? = some (.ofPath f) := fun hk => by
    rw [List.getElem?_map, hk, Option.map_some]
  constructor
  · rintro ⟨fuel, ⟨entries, found⟩, hfuel, hmapped⟩ pre b post rfl hreq
    have hblocks := (mapAddresses_renderMap hasks _).mp ⟨fuel, hfuel⟩
    have hb : b ∈ pre ++ b :: post := List.mem_append_right pre List.mem_cons_self
    have hcount : ∀ c ∈ pre ++ b :: post, c.path ∈ requests → requests.count c.path = 1 := by
      rw [← length_requestedPaths_iff honce, requestedPaths, List.length_map]
      have hfound := (mapBlocks_names hnames hblocks).2
      rw [Nat.zero_add] at hfound
      exact hfound.symm.trans hmapped.count
    refine ⟨hcount b hb hreq, ?_⟩
    obtain ⟨k, hlt, hget⟩ := List.getElem_of_mem hreq
    have hk : requests[k]? = some b.path := by rw [List.getElem?_eq_getElem hlt, hget]
    obtain ⟨hpre, hpost⟩ := path_ne_of_count (honce b.path hreq)
    obtain ⟨e, hread, he⟩ := mapBlocks_first hnames hblocks
      (findIdx?_of_count (hcount b hb hreq) hk) hpre hpost (hentry hk)
    rw [hmapped.entries k b.path hk b hb rfl] at he
    rw [← read_eq_own_iff, hread, ← he]
  · intro h
    obtain ⟨r, hblocks⟩ := Option.isSome_iff_exists.mp (isSome_mapBlocks (n := 0) hnames
      fun pre b post hsplit hreq => (h pre b post hsplit hreq).2.isSome_read)
    obtain ⟨fuel, hfuel⟩ := (mapAddresses_renderMap hasks r).mpr hblocks
    refine ⟨fuel, r, hfuel, fun k f hk b hb hpath => ?_, ?_⟩
    · subst hpath
      obtain ⟨pre, post, rfl⟩ := List.append_of_mem hb
      have hreq := List.mem_of_getElem? hk
      obtain ⟨hcount, hkept⟩ := h pre b post rfl hreq
      obtain ⟨hpre, hpost⟩ := path_ne_of_count (honce b.path hreq)
      obtain ⟨e, hread, he⟩ := mapBlocks_first hnames hblocks (findIdx?_of_count hcount hk) hpre
        hpost (hentry hk)
      rw [read_eq_own_iff.mpr hkept] at hread
      rw [he, hread]
    · have hlen := (length_requestedPaths_iff honce).mpr fun b hb hreq => by
        obtain ⟨pre, post, hsplit⟩ := List.append_of_mem hb
        exact (h pre b post hsplit hreq).1
      rw [requestedPaths, List.length_map] at hlen
      exact ((mapBlocks_names hnames hblocks).2.trans (Nat.zero_add _)).trans hlen

/-! ## A map of one image -/

section OneImage

/-- An address of one digit. -/
def oneDigit (d : UInt8) (hex : (hexDigit? d).isSome) (fits : digitsValue 0 [d] < 2 ^ 64) :
    Address where
  digits := [d]
  hex := fun c hc => by rwa [List.mem_singleton.mp hc]
  nonempty := List.cons_ne_nil d []
  fits := fits

def one : Address := oneDigit 49 (by decide) (by decide)

def two : Address := oneDigit 50 (by decide) (by decide)

def three : Address := oneDigit 51 (by decide) (by decide)

def four : Address := oneDigit 52 (by decide) (by decide)

/-- The path `/a`. -/
def pathA : CString := [47, 97]

theorem isPath_pathA : IsPath pathA :=
  ⟨by decide, by decide, by decide⟩

/-- The image `/a`, with a text segment `0x1 -> 0x2` and a data segment that begins at `0x3`. -/
def blockA (stop : Address) : MapBlock where
  path := pathA
  text := ⟨one, two⟩
  data := some ⟨three, stop⟩
  others := []
  isPath := isPath_pathA
  newline := nofun

theorem asks_blockA (stop : Address) : (∀ f ∈ [pathA], IsPath f) ∧
    (∀ f ∈ [pathA], ∀ b ∈ [blockA stop], f <+: b.path → b.path = f) ∧
    ∀ f ∈ [pathA], ([blockA stop].map (·.path)).count f ≤ 1 := by
  refine ⟨fun f hf => ?_, fun f hf b hb _ => ?_, fun f hf => ?_⟩ <;>
    rw [List.mem_singleton.mp hf]
  · exact isPath_pathA
  · rw [List.mem_singleton.mp hb]
    rfl
  · exact List.count_le_length

theorem mapped_iff_blockA :
    (∃ fuel r, mapAddresses (some (renderMap [blockA two])) ([pathA].map .ofPath) fuel =
      some (some r) ∧ Mapped [blockA two] [pathA] r) ↔
    ∀ pre b post, [blockA two] = pre ++ b :: post → b.path ∈ [pathA] →
      [pathA].count b.path = 1 ∧ b.Kept (renderMap post) :=
  mapped_iff (asks_blockA two).1 (asks_blockA two).2.1 (asks_blockA two).2.2

/-- **The defect**: a data segment `0x3 -> 0x4` is said to end at `0x2`, where the text segment
does. -/
theorem not_mapped_blockA : (∀ f ∈ [pathA], IsPath f) ∧
    (∀ f ∈ [pathA], ∀ b ∈ [blockA four], f <+: b.path → b.path = f) ∧
    (∀ f ∈ [pathA], ([blockA four].map (·.path)).count f ≤ 1) ∧
    ¬ ∃ fuel r, mapAddresses (some (renderMap [blockA four])) ([pathA].map .ofPath) fuel =
      some (some r) ∧ Mapped [blockA four] [pathA] r := by
  obtain ⟨hpaths, hwhole, honce⟩ := asks_blockA four
  refine ⟨hpaths, hwhole, honce, ?_⟩
  rintro ⟨fuel, r, hrun, hmapped⟩
  have hblocks := (mapAddresses_renderMap (asks_ofPath hpaths hwhole) r).mp ⟨fuel, hrun⟩
  obtain rfl := Option.some.inj hblocks
  have hentry := hmapped.entries 0 pathA rfl _ List.mem_cons_self rfl
  exact absurd (congrArg (fun e => (e.map MapEntry.endDATA)) hentry) (by decide)

end OneImage

end Lilu.UserPatcher
