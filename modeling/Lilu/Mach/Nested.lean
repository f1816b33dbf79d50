import Mathlib.Data.FinEnum
import Mathlib.Data.Fintype.Option
import Lilu.Mach.FileSystem

/-!
# Images in images

A fat file holds a native image, and a compressed image holds the one that it was made from. The
reading of a header goes from one to the next, and starts with what is at the start of the file.
Nothing but the file says how far this goes, and how much is decompressed is compared in the file's
byte order.

## Main definitions

* `Place`: where an image in a file is
* `Place.next`: the image that the image at a place holds
* `GoesOnRight`: decompressed contents are read only if there is a whole header of them

## Main results

* `Sits.turn`: what a turn of the reading does, by the place of its image
* `readMachHeader_ends_iff`: when the reading of a header ends
* `goesOnRight_iff`: when it goes on with decompressed contents as it should
-/

namespace Lilu.MachInfo

variable {env : Env} {v : Vnode} {k : ℕ}

/-! ## Headers that agree -/

section Congr

variable {b b' : Buffer} {o n : ℕ}

theorem bytesAt_congr (h : ∀ k < HeaderSize, b k = b' k) (ho : o + n ≤ HeaderSize) :
    bytesAt b o n = bytesAt b' o n := by
  apply List.map_congr_left
  intro i hi
  rw [List.mem_range] at hi
  exact h _ (by omega)

theorem u32_congr (h : ∀ k < HeaderSize, b k = b' k) (ho : o + 4 ≤ HeaderSize) :
    u32 b o = u32 b' o := by
  rw [u32, u32, bytesAt_congr h ho]

theorem swap32_congr (h : ∀ k < HeaderSize, b k = b' k) (ho : o + 4 ≤ HeaderSize) :
    swap32 b o = swap32 b' o := by
  rw [swap32, swap32, bytesAt_congr h ho]

theorem fatWord_congr (h : ∀ k < HeaderSize, b k = b' k) (ho : o + 4 ≤ HeaderSize) :
    fatWord b o = fatWord b' o := by
  rw [fatWord, fatWord, u32_congr h ho, swap32_congr h ho, u32_congr h (by decide : 0 + 4 ≤ HeaderSize)]

/-- The architectures that are looked at are in the header. -/
theorem archOffset_congr (h : ∀ k < HeaderSize, b k = b' k) : archOffset b = archOffset b' := by
  have hnum : fatWord b 4 = fatWord b' 4 := fatWord_congr h (by decide)
  simp only [archOffset, hnum]
  split_ifs with hmany
  · rfl
  -- with no more of them than the header has room for, each is inside of it
  · have hinside : ∀ i ∈ List.range (fatWord b' 4), i * 20 + 20 ≤ HeaderSize - 20 := by
      intro i hi
      rw [List.mem_range] at hi
      omega
    have hfind : (List.range (fatWord b' 4)).find? (fun i => fatWord b (i * 20 + 8) = MachCpuTypeNative) =
        (List.range (fatWord b' 4)).find? fun i => fatWord b' (i * 20 + 8) = MachCpuTypeNative := by
      apply List.find?_congr
      intro i hi
      have hi := hinside i hi
      rw [fatWord_congr h (by simp only [HeaderSize] at *; omega)]
    rw [hfind]
    apply Option.map_congr
    intro i hi
    have hi := hinside i (List.mem_of_find?_eq_some hi)
    exact fatWord_congr h (by simp only [HeaderSize] at *; omega)

theorem u32_lt : u32 b o < 2 ^ 32 := by
  have hlt := leNat_lt (bytesAt b o 4)
  rw [bytesAt, List.length_map, List.length_range] at hlt
  exact hlt

theorem swap32_lt : swap32 b o < 2 ^ 32 := by
  have hlt := leNat_lt (bytesAt b o 4).reverse
  rw [bytesAt, List.length_reverse, List.length_map, List.length_range] at hlt
  exact hlt

theorem fatWord_lt : fatWord b o < 2 ^ 32 := by
  rw [fatWord]
  split_ifs
  · exact swap32_lt
  · exact u32_lt

theorem archOffset_lt {off : ℕ} (h : archOffset b = some off) : off < 2 ^ 32 := by
  simp only [archOffset] at h
  split_ifs at h
  -- the offset is a word of the header
  obtain ⟨i, -, rfl⟩ := Option.map_eq_some_iff.mp h
  exact fatWord_lt

end Congr

/-! ## Places -/

/-- Where an image in a file is: at an offset, or in what is compressed there, with the mode and the
two sizes of the compressed image's header. -/
structure Place where
  off : UInt32
  contents : Option (UInt32 × UInt32 × UInt32)
  deriving DecidableEq

instance : Finite Place :=
  Finite.of_injective (fun p => (p.off, p.contents)) fun p q h => by
    cases p
    cases q
    cases h
    rfl

namespace Place

/-- The start of the file. -/
def start : Place :=
  ⟨0, none⟩

end Place

variable (env v)

/-- What is compressed behind the header at an offset, if there is memory for it. -/
def contentsAt (granted : Bool) (off mode dec comp : ℕ) : Option (List UInt8) :=
  (v.readFileData env.behind (off + CompressionHeaderSize) comp).bind fun src =>
    decompress env granted mode dec (bytesAt src 0 comp)

/-- The bytes of the image at a place; too short contents go on with what is behind them. -/
def Place.byte (p : Place) : Buffer :=
  match p.contents with
  | none => fun k => v.byte (p.off.toNat + k)
  | some (mode, dec, comp) => fun k =>
    ((contentsAt env v true p.off.toNat mode.toNat dec.toNat comp.toNat).getD []).getD k
      (env.behind k)

/-- The image that the image at a place holds, if it holds one that can be read: the native image of
a fat file, or what was compressed. -/
def Place.next (p : Place) : Option Place :=
  let b := p.byte env v
  if u32 b 0 = MachMagicNative then none
  else if u32 b 0 = FAT_CIGAM ∨ u32 b 0 = FAT_MAGIC then
    if p.off ≠ 0 then none
    else
      (archOffset b).bind fun off =>
        if v.readable off HeaderSize ∧ off + HeaderSize ≤ v.size then some ⟨UInt32.ofNat off, none⟩
        else none
  else if u32 b 0 = CompressionMagic then
    if env.allow_decompress ∧ u32 b 12 > HeaderSize ∧
        (contentsAt env v true p.off.toNat (u32 b 4) (swap32 b 12) (swap32 b 16)).isSome then
      some ⟨p.off, some (UInt32.ofNat (u32 b 4), UInt32.ofNat (swap32 b 12),
        UInt32.ofNat (swap32 b 16))⟩
    else none
  else none

/-- The first image, if it can be read. -/
def firstPlace : Option Place :=
  if (v.readFileData env.behind 0 HeaderSize).isSome then some .start else none

/-- There is memory for the compressed contents of a turn, and for what they decompress to. -/
def Vnode.Grants (t : ℕ) : Prop :=
  v.compressedBuf t ∧ v.decompressedBuf t

variable {env v}

/-! ## Turns -/

/-- The header buffer has the header of the image at a place. -/
structure Sits (env : Env) (v : Vnode) (s : Scan) (p : Place) : Prop where
  off_eq : s.off = p.off.toNat
  buffer_eq : ∀ k < HeaderSize, s.buffer k = p.byte env v k

/-- A turn of the reading: it ends where an image holds none, goes on with a native image of the
file, and with decompressed contents if there is memory for them. -/
inductive TurnAt (env : Env) (v : Vnode) (s : Scan) (p : Place) : Turn Scan Outcome → Prop where
  | ends (hnext : p.next env v = none) (r : Outcome) : TurnAt env v s p (.leave r)
  | slice {p' : Place} {s' : Scan} (hnext : p.next env v = some p') (hslice : p'.contents = none)
      (hoff : p.off = 0) (hsits : Sits env v s' p') (hturns : s'.turns = s.turns) :
      TurnAt env v s p (.again s')
  | contents {p' : Place} {s' : Scan} (hnext : p.next env v = some p')
      (hcontents : p'.contents.isSome) (hgrants : v.Grants s.turns) (hsits : Sits env v s' p')
      (hturns : s'.turns = s.turns + 1) : TurnAt env v s p (.again s')
  | denied {p' : Place} (hnext : p.next env v = some p') (hcontents : p'.contents.isSome)
      (hdenies : ¬ v.Grants s.turns) (r : Outcome) : TurnAt env v s p (.leave r)

section Turns

variable {s : Scan} {p : Place}

theorem not_decompress {mode dec : ℕ} {src : List UInt8} :
    decompress env false mode dec src = none := by
  rw [decompress, if_neg (by decide)]

/-- The place of the contents that a compressed header describes. -/
def contentsPlace (off : UInt32) (b : Buffer) : Place :=
  ⟨off, some (UInt32.ofNat (u32 b 4), UInt32.ofNat (swap32 b 12), UInt32.ofNat (swap32 b 16))⟩

theorem contentsPlace_byte {off : UInt32} {b : Buffer} {out : List UInt8}
    (h : contentsAt env v true off.toNat (u32 b 4) (swap32 b 12) (swap32 b 16) = some out) :
    (contentsPlace off b).byte env v = fun k => out.getD k (env.behind k) := by
  simp only [contentsPlace, Place.byte, UInt32.toNat_ofNat_of_lt' u32_lt,
    UInt32.toNat_ofNat_of_lt' swap32_lt, h, Option.getD_some]

/-- A compressed image holds its contents, if they can be read and decompressed. -/
theorem Place.next_compressed (hmagic : u32 (p.byte env v) 0 = CompressionMagic) :
    p.next env v = if env.allow_decompress ∧ u32 (p.byte env v) 12 > HeaderSize ∧
        (contentsAt env v true p.off.toNat (u32 (p.byte env v) 4) (swap32 (p.byte env v) 12)
          (swap32 (p.byte env v) 16)).isSome then some (contentsPlace p.off (p.byte env v))
      else none := by
  rw [next, if_neg (by rw [hmagic]; decide), if_neg (by rw [hmagic]; decide), if_pos hmagic]
  rfl

/-- A turn for a fat file: the native image in it, unless there was one before. -/
theorem Sits.turn_fat (h : Sits env v s p)
    (hmagic : u32 (p.byte env v) 0 = FAT_CIGAM ∨ u32 (p.byte env v) 0 = FAT_MAGIC) :
    TurnAt env v s p (readTurn env k v s) := by
  obtain ⟨hoff, hbuffer⟩ := h
  have hfat : u32 s.buffer 0 = FAT_CIGAM ∨ u32 s.buffer 0 = FAT_MAGIC := by
    rwa [u32_congr hbuffer (by decide)]
  have hnative : ∀ {b : Buffer}, u32 b 0 = FAT_CIGAM ∨ u32 b 0 = FAT_MAGIC →
      u32 b 0 ≠ MachMagicNative := by
    rintro b (hb | hb) <;> rw [hb] <;> decide
  rw [readTurn]
  rw [if_neg (hnative hfat), if_pos hfat, archOffset_congr hbuffer]
  -- the guard against a recursion is the offset of the header, and the place has the same
  by_cases hrecursion : p.off = 0
  · have hzero : ¬ s.off ≠ 0 := by
      rw [not_not, hoff, hrecursion]
      rfl
    have hnext : p.next env v = (archOffset (p.byte env v)).bind fun off =>
        if v.readable off HeaderSize ∧ off + HeaderSize ≤ v.size then some ⟨UInt32.ofNat off, none⟩
        else none := by
      rw [Place.next, if_neg (hnative hmagic), if_pos hmagic, if_neg (not_not.mpr hrecursion)]
    rw [if_neg hzero]
    cases harch : archOffset (p.byte env v) with
    | none => exact .ends (by rw [hnext, harch, Option.bind_none]) _
    | some off =>
      rw [harch, Option.bind_some] at hnext
      simp only [Vnode.readFileData]
      -- what is read there is the next header
      by_cases hread : v.readable off HeaderSize ∧ off + HeaderSize ≤ v.size
      · rw [if_pos hread] at hnext ⊢
        refine .slice hnext rfl hrecursion ⟨?_, fun k hk => ?_⟩ rfl
        · exact (UInt32.toNat_ofNat_of_lt' (archOffset_lt harch)).symm
        · rw [Place.byte, UInt32.toNat_ofNat_of_lt' (archOffset_lt harch)]
          exact if_pos hk
      · rw [if_neg hread] at hnext ⊢
        exact .ends hnext _
  · have hzero : s.off ≠ 0 := by
      rw [hoff]
      exact fun h => hrecursion (UInt32.toNat_inj.mp h)
    rw [if_pos hzero]
    exact .ends (by rw [Place.next, if_neg (hnative hmagic), if_pos hmagic, if_pos hrecursion]) _

theorem decompressTurn_of_none {src : Buffer}
    (h : decompress env (v.decompressedBuf s.turns) (u32 s.buffer 4) (swap32 s.buffer 12)
      (bytesAt src 0 (swap32 s.buffer 16)) = none) :
    decompressTurn env k v s src = .leave ⟨some none, none⟩ := by
  rw [decompressTurn, h]

theorem decompressTurn_of_some {src : Buffer} {out : List UInt8}
    (h : decompress env (v.decompressedBuf s.turns) (u32 s.buffer 4) (swap32 s.buffer 12)
      (bytesAt src 0 (swap32 s.buffer 16)) = some out) :
    decompressTurn env k v s src = .again { s with
      buffer := copy s.buffer HeaderSize fun k => out.getD k (env.behind k)
      image := ⟨fun k => out.getD k (env.behind k), .decompressed k s.turns, 0⟩
      left := some (some ⟨fun k => out.getD k (env.behind k), swap32 s.buffer 12,
        .decompressed k s.turns⟩)
      turns := s.turns + 1 } := by
  rw [decompressTurn, h]

/-- A turn for a compressed image: its contents, if there is memory for them. -/
theorem Sits.turn_compressed (h : Sits env v s p)
    (hmagic : u32 (p.byte env v) 0 = CompressionMagic) :
    TurnAt env v s p (readTurn env k v s) := by
  obtain ⟨hoff, hbuffer⟩ := h
  have hcompressed : u32 s.buffer 0 = CompressionMagic := by
    rwa [u32_congr hbuffer (by decide)]
  have hmode : u32 s.buffer 4 = u32 (p.byte env v) 4 := u32_congr hbuffer (by decide)
  have hraw : u32 s.buffer 12 = u32 (p.byte env v) 12 := u32_congr hbuffer (by decide)
  have hdec : swap32 s.buffer 12 = swap32 (p.byte env v) 12 := swap32_congr hbuffer (by decide)
  have hcomp : swap32 s.buffer 16 = swap32 (p.byte env v) 16 := swap32_congr hbuffer (by decide)
  have hnext := Place.next_compressed hmagic
  rw [readTurn]
  rw [if_neg (by rw [hcompressed]; decide), if_neg (by rw [hcompressed]; decide),
    if_pos hcompressed, hraw, hcomp]
  -- only the fields of the header matter from here on
  generalize p.byte env v = b at *
  -- Cases as the turn checks them: allowed, read, the raw size, decompressed, and memory for both.
  by_cases hallow : env.allow_decompress = true
  · cases hread : v.readFileData env.behind (s.off + CompressionHeaderSize) (swap32 b 16) with
    | none =>
      -- nothing can be read, whether or not there is memory for it
      have hnone : contentsAt env v true p.off.toNat (u32 b 4) (swap32 b 12) (swap32 b 16) = none := by
        rw [contentsAt, ← hoff, hread, Option.bind_none]
      rw [hnone, if_neg (by simp)] at hnext
      dsimp only
      split_ifs
      · exact .ends hnext _
      · exact .ends hnext _
    | some src =>
      have hcontents : ∀ granted, contentsAt env v granted p.off.toNat (u32 b 4) (swap32 b 12)
          (swap32 b 16) = decompress env granted (u32 b 4) (swap32 b 12)
            (bytesAt src 0 (swap32 b 16)) := by
        intro granted
        rw [contentsAt, ← hoff, hread, Option.bind_some]
      by_cases hsize : u32 b 12 > HeaderSize
      · have hdecompress : ∀ granted, decompress env granted (u32 s.buffer 4) (swap32 s.buffer 12)
            (bytesAt src 0 (swap32 s.buffer 16)) =
              contentsAt env v granted p.off.toNat (u32 b 4) (swap32 b 12) (swap32 b 16) := by
          intro granted
          rw [hmode, hdec, hcomp, hcontents]
        dsimp only
        rw [if_pos hsize]
        cases hout : contentsAt env v true p.off.toNat (u32 b 4) (swap32 b 12) (swap32 b 16) with
        | none =>
          rw [hout, if_neg (by simp)] at hnext
          -- it fails with memory, so it fails without too
          have hnone : ∀ granted, contentsAt env v granted p.off.toNat (u32 b 4) (swap32 b 12)
              (swap32 b 16) = none := by
            intro granted
            cases granted with
            | false => rw [hcontents, not_decompress]
            | true => exact hout
          rw [decompressTurn_of_none ((hdecompress _).trans (hnone _))]
          split_ifs
          · exact .ends hnext _
          · exact .ends hnext _
        | some out =>
          rw [hout, if_pos ⟨hallow, hsize, rfl⟩] at hnext
          by_cases hgrants : v.Grants s.turns
          · have hcontents' := (hdecompress (v.decompressedBuf s.turns)).trans (hgrants.2 ▸ hout)
            rw [if_pos ⟨hallow, hgrants.1⟩, decompressTurn_of_some hcontents', hdec]
            refine .contents hnext rfl hgrants ⟨hoff, fun k hk => ?_⟩ rfl
            rw [contentsPlace_byte hout]
            exact if_pos hk
          -- there is no memory for the compressed bytes, or for what they decompress to
          · split_ifs with hbuf
            · have hno : v.decompressedBuf s.turns = false := by
                rw [← Bool.not_eq_true]
                exact fun hgranted => hgrants ⟨hbuf.2, hgranted⟩
              have hnone := (hdecompress (v.decompressedBuf s.turns)).trans (hcontents _)
              rw [hno, not_decompress] at hnone
              rw [decompressTurn_of_none (hno ▸ hnone)]
              exact .denied hnext rfl hgrants _
            · exact .denied hnext rfl hgrants _
      · rw [if_neg fun h => hsize h.2.1] at hnext
        dsimp only
        rw [if_neg hsize]
        split_ifs
        · exact .ends hnext _
        · exact .ends hnext _
  · rw [if_neg fun h => hallow h.1] at hnext ⊢
    exact .ends hnext _

/-- **What a turn does**, by the place of its image. -/
theorem Sits.turn (h : Sits env v s p) : TurnAt env v s p (readTurn env k v s) := by
  by_cases hfat : u32 (p.byte env v) 0 = FAT_CIGAM ∨ u32 (p.byte env v) 0 = FAT_MAGIC
  · exact h.turn_fat hfat
  by_cases hcompressed : u32 (p.byte env v) 0 = CompressionMagic
  · exact h.turn_compressed hcompressed
  have hnext : p.next env v = none := by
    rw [Place.next]
    rw [if_neg hfat, if_neg hcompressed, ite_self]
  have hmagic : u32 s.buffer 0 = u32 (p.byte env v) 0 := u32_congr h.buffer_eq (by decide)
  rw [readTurn]
  rw [hmagic, if_neg hfat, if_neg hcompressed]
  split_ifs
  · exact .ends hnext _
  · exact .ends hnext _

end Turns

/-! ## Whether the reading ends -/

section Ends

variable {s : Scan} {p p' : Place} {buffer : Buffer}

/-- At some turn there is no memory for contents. -/
def Vnode.Denies (v : Vnode) : Prop :=
  ∃ t, ¬ v.Grants t

/-- The native image of a fat file can be read, and the fat file is no native image itself. -/
theorem Place.next_slice (h : p.next env v = some p') (hslice : p'.contents = none) :
    p.off = 0 ∧ (v.readFileData env.behind p'.off.toNat HeaderSize).isSome := by
  rw [next] at h
  split_ifs at h with hnative hfat hrecursion hcompressed hsome
  · obtain ⟨off, harch, h⟩ := Option.bind_eq_some_iff.mp h
    split_ifs at h with hread
    obtain rfl := Option.some.inj h
    refine ⟨not_not.mp hrecursion, ?_⟩
    rw [Vnode.readFileData, UInt32.toNat_ofNat_of_lt' (archOffset_lt harch), if_pos hread]
    rfl
  · obtain rfl := Option.some.inj h
    cases hslice

theorem sits_start (h : v.readFileData env.behind 0 HeaderSize = some buffer) :
    Sits env v ⟨0, buffer, v.image k 0, none, 0⟩ .start := by
  refine ⟨rfl, fun i hi => ?_⟩
  rw [Vnode.readFileData] at h
  split_ifs at h
  rw [← Option.some.inj h]
  exact if_pos hi

/-- A fat file that is its own native image is read forever. -/
theorem readMachHeader_never (hself : Place.start.next env v = some .start) (fuel : ℕ) :
    readMachHeader env fuel k v = none := by
  obtain ⟨buffer, hread⟩ := Option.isSome_iff_exists.mp (Place.next_slice hself rfl).2
  have hread : v.readFileData env.behind 0 HeaderSize = some buffer := hread
  rw [readMachHeader, hread]
  -- The invariant: the header buffer has the fat header, at offset zero, again.
  apply loop_never (fun s => Sits env v s .start) (fun s hs => ?_) (sits_start hread)
  cases hturn : readTurn env k v s with
  | again s' =>
    have hat : TurnAt env v s .start (.again s') := hturn ▸ hs.turn
    cases hat with
    | slice hnext _ _ hsits =>
      obtain rfl := Option.some.inj (hnext.symm.trans hself)
      exact ⟨s', rfl, hsits⟩
    | contents hnext hcontents =>
      obtain rfl := Option.some.inj (hnext.symm.trans hself)
      cases hcontents
  | leave r =>
    have hat : TurnAt env v s .start (.leave r) := hturn ▸ hs.turn
    cases hat with
    | ends hnext => exact absurd (hnext.symm.trans hself) (by simp)
    | denied hnext hcontents =>
      obtain rfl := Option.some.inj (hnext.symm.trans hself)
      cases hcontents

/-- How many native images are read before the next contents, at most. -/
def phase (env : Env) (v : Vnode) (p : Place) : ℕ :=
  match p.next env v with
  | none => 0
  | some p' => if p'.contents.isSome then 0 else if p'.off = 0 then 2 else 1

theorem phase_le : phase env v p ≤ 2 := by
  rw [phase]
  split
  · exact Nat.zero_le 2
  · split_ifs <;> decide

theorem phase_lt (hself : Place.start.next env v ≠ some .start) (hnext : p.next env v = some p')
    (hslice : p'.contents = none) : phase env v p' < phase env v p := by
  have hlast : ∀ {q q' : Place}, q.next env v = some q' → q'.contents = none → q.off = 0 :=
    fun hq hq' => (Place.next_slice hq hq').1
  have hphase : phase env v p = if p'.off = 0 then 2 else 1 := by
    rw [phase, hnext]
    dsimp only
    rw [hslice, if_neg (by decide)]
  rw [hphase]
  -- A native image that is not at offset zero is the last, and one that is there holds no other
  -- there.
  cases hnext' : p'.next env v with
  | none =>
    rw [phase, hnext']
    split_ifs <;> decide
  | some p'' =>
    rw [phase, hnext']
    dsimp only
    split_ifs with hcontents hzero hzero' hoff
    · decide
    · decide
    · -- the start of the file would be its own native image
      have hcontents : p''.contents = none := Option.not_isSome_iff_eq_none.mp hcontents
      have hstart : p' = .start := by
        cases p'
        cases hslice
        exact congrArg (Place.mk · none) hoff
      have hagain : p'' = .start := by
        cases p''
        cases hcontents
        exact congrArg (Place.mk · none) hzero'
      rw [hstart, hagain] at hnext'
      exact absurd hnext' hself
    · have hcontents : p''.contents = none := Option.not_isSome_iff_eq_none.mp hcontents
      exact absurd (hlast hnext' hcontents) hoff
    · decide
    · have hcontents : p''.contents = none := Option.not_isSome_iff_eq_none.mp hcontents
      exact absurd (hlast hnext' hcontents) ‹_›

/-- Without memory at some turn there is an end, unless the file is its own native image. -/
theorem loop_ends_of_denied (hself : Place.start.next env v ≠ some .start) {turn : ℕ}
    (hdenies : ¬ v.Grants turn) (hsits : Sits env v s p) (hturns : s.turns ≤ turn) :
    ∃ n r, loop (readTurn env k v) n s = some r := by
  -- The measure: each decompression comes closer to the turn without memory, and between two of
  -- them there are at most two native images.
  refine ⟨_, loop_ends (fun s p => Sits env v s p ∧ s.turns ≤ turn)
    (fun s p => 3 * (turn + 1 - s.turns) + phase env v p) ?_ ⟨hsits, hturns⟩ (Nat.lt_succ_self _)⟩
  rintro s p s' ⟨hsits, hturns⟩ hturn
  have hat : TurnAt env v s p (.again s') := hturn ▸ hsits.turn
  cases hat with
  | @slice p' _ hnext hslice _ hsits' hsame =>
    have hphase := phase_lt hself hnext hslice
    exact ⟨p', ⟨hsits', by omega⟩, by rw [hsame]; omega⟩
  | @contents p' _ hnext _ hgrants hsits' hnew =>
    have hphase := @phase_le env v p'
    -- contents are read only in a turn that there is memory for
    have hne : s.turns ≠ turn := fun heq => hdenies (heq ▸ hgrants)
    exact ⟨p', ⟨hsits', by omega⟩, by omega⟩

/-- With all the memory the reading follows the images that the file holds. -/
theorem loop_ends_iff_next (hgrants : ∀ t, v.Grants t) (hsits : Sits env v s p) :
    (∃ n r, loop (readTurn env k v) n s = some r) ↔
      ∃ n, chain (Place.next env v) (some p) n = none := by
  -- The simulation: with memory, a turn goes on exactly where the place has a next one.
  apply loop_ends_iff_chain (Sits env v) _ _ hsits
  · intro s p p' hsits hnext
    cases hturn : readTurn env k v s with
    | again s' =>
      have hat : TurnAt env v s p (.again s') := hturn ▸ hsits.turn
      cases hat with
      | slice hnext' _ _ hsits' =>
        obtain rfl := Option.some.inj (hnext'.symm.trans hnext)
        exact ⟨s', rfl, hsits'⟩
      | contents hnext' _ _ hsits' =>
        obtain rfl := Option.some.inj (hnext'.symm.trans hnext)
        exact ⟨s', rfl, hsits'⟩
    | leave r =>
      have hat : TurnAt env v s p (.leave r) := hturn ▸ hsits.turn
      cases hat with
      | ends hnext' => exact absurd (hnext'.symm.trans hnext) (by simp)
      | denied _ _ hdenies => exact absurd (hgrants _) hdenies
  · intro s p hsits hnext
    cases hturn : readTurn env k v s with
    | again s' =>
      have hat : TurnAt env v s p (.again s') := hturn ▸ hsits.turn
      cases hat with
      | slice hnext' => exact absurd (hnext.symm.trans hnext') (by simp)
      | contents hnext' => exact absurd (hnext.symm.trans hnext') (by simp)
    | leave r => exact ⟨r, rfl⟩

/-- **Whether the reading of a header ends**: the file must not be a fat one that is its own native
image; then it ends if there is no memory for contents at some turn, or else if and only if no image
comes twice when they are followed from the start of the file on. -/
theorem readMachHeader_ends_iff : (∃ fuel r, readMachHeader env fuel k v = some r) ↔
    Place.start.next env v ≠ some .start ∧
      (v.Denies ∨ ∀ i j p, chain (Place.next env v) (firstPlace env v) i = some p →
        chain (Place.next env v) (firstPlace env v) j = some p → i = j) := by
  rw [← chain_ends_iff]
  -- The fat file that is its own native image comes first: no memory is asked for there.
  by_cases hself : Place.start.next env v = some .start
  · refine iff_of_false ?_ fun h => h.1 hself
    rintro ⟨fuel, r, hr⟩
    exact absurd ((readMachHeader_never hself fuel).symm.trans hr) (by simp)
  rw [and_iff_right hself]
  cases hread : v.readFileData env.behind 0 HeaderSize with
  | none =>
    refine iff_of_true ⟨0, ⟨none, none⟩, by rw [readMachHeader, hread]⟩ (.inr ⟨0, ?_⟩)
    rw [chain, firstPlace, hread, if_neg (by decide)]
  | some buffer =>
    have hfirst : firstPlace env v = some .start := by
      rw [firstPlace, hread]
      rfl
    have hsits : Sits env v ⟨0, buffer, v.image k 0, none, 0⟩ .start := sits_start hread
    have hloop : ∀ fuel, readMachHeader env fuel k v =
        loop (readTurn env k v) fuel ⟨0, buffer, v.image k 0, none, 0⟩ := fun fuel => by
      rw [readMachHeader, hread]
    simp only [hloop, hfirst]
    -- a turn without memory bounds the reading; else the images do
    by_cases hdenies : v.Denies
    · obtain ⟨turn, hturn⟩ := hdenies
      exact iff_of_true (loop_ends_of_denied hself hturn hsits (Nat.zero_le _)) (.inl ⟨turn, hturn⟩)
    · have hgrants : ∀ t, v.Grants t := fun t => not_not.mp fun hno => hdenies ⟨t, hno⟩
      rw [or_iff_right hdenies]
      exact loop_ends_iff_next hgrants hsits

end Ends

/-- A fat file whose native image is at offset zero. -/
def fatLoop : Vnode where
  size := 8192
  byte := fun k => [0xCA, 0xFE, 0xBA, 0xBE, 0, 0, 0, 1, 1, 0, 0, 7].getD k 0
  readable := fun _ _ => true
  compressedBuf := fun _ => true
  decompressedBuf := fun _ => true

/-- Its reading goes round forever, since offset zero does not count as a recursion. -/
theorem not_readMachHeader_ends_fatLoop : ¬ ∀ (env : Env) (k : ℕ) (v : Vnode),
    ∃ fuel r, readMachHeader env fuel k v = some r := by
  intro h
  obtain ⟨fuel, r, hr⟩ := h kextEnv 0 fatLoop
  have hself : Place.start.next kextEnv fatLoop = some .start := by decide
  exact absurd ((readMachHeader_never hself fuel).symm.trans hr) (by simp)

/-! ## How much is decompressed -/

/-- What is compressed behind a header can be decompressed, to as many bytes as the header says. -/
def Decompresses (env : Env) (v : Vnode) (s : Scan) : Prop :=
  env.allow_decompress ∧ v.compressedBuf s.turns ∧
    ∃ out, contentsAt env v (v.decompressedBuf s.turns) s.off (u32 s.buffer 4) (swap32 s.buffer 12)
      (swap32 s.buffer 16) = some out

/-- The reading goes on with decompressed contents if and only if there is more than a header of
them, and the header is copied from inside of `file_buf`. -/
structure GoesOnRight (env : Env) (k : ℕ) (v : Vnode) (s : Scan) : Prop where
  goes_on : (∃ s', readTurn env k v s = .again s') ↔
    HeaderSize < swap32 s.buffer 12 ∧ Decompresses env v s
  inside : ∀ s', readTurn env k v s = .again s' →
    ∃ b, s'.left = some (some b) ∧ HeaderSize ≤ b.size

/-- A turn for a compressed header goes on if the size in the file's byte order is larger than a
header, and what is decompressed can be; then `file_buf` is as long as the header says. -/
theorem readTurn_compressed {s : Scan} (hmagic : u32 s.buffer 0 = CompressionMagic) :
    ((∃ s', readTurn env k v s = .again s') ↔
      HeaderSize < u32 s.buffer 12 ∧ Decompresses env v s) ∧
    ∀ s', readTurn env k v s = .again s' →
      ∃ b, s'.left = some (some b) ∧ b.size = swap32 s.buffer 12 := by
  rw [readTurn, if_neg (by rw [hmagic]; decide), if_neg (by rw [hmagic]; decide), if_pos hmagic,
    Decompresses, contentsAt]
  -- Cases as the turn checks them; only the last, with a raw size that is large enough, goes on.
  by_cases hallowed : env.allow_decompress = true ∧ v.compressedBuf s.turns = true
  · rw [if_pos hallowed]
    cases hread : v.readFileData env.behind (s.off + CompressionHeaderSize) (swap32 s.buffer 16) with
    | none => simp
    | some src =>
      dsimp only
      by_cases hsize : u32 s.buffer 12 > HeaderSize
      · rw [if_pos hsize, Option.bind_some]
        cases hout : decompress env (v.decompressedBuf s.turns) (u32 s.buffer 4) (swap32 s.buffer 12)
            (bytesAt src 0 (swap32 s.buffer 16)) with
        | none =>
          rw [decompressTurn_of_none hout]
          simp
        | some out =>
          rw [decompressTurn_of_some hout]
          refine ⟨iff_of_true ⟨_, rfl⟩ ⟨hsize, hallowed.1, hallowed.2, out, rfl⟩, ?_⟩
          rintro s' ⟨⟩
          exact ⟨_, rfl, rfl⟩
      · rw [if_neg hsize]
        exact ⟨iff_of_false (by simp) fun h => hsize h.1, by simp⟩
  · rw [if_neg hallowed]
    exact ⟨iff_of_false (by simp) fun h => hallowed ⟨h.2.1, h.2.2.1⟩, by simp⟩

/-- **How much is decompressed**: the reading of a compressed header goes on as it should if and
only if the decompression fails, or the two byte orders of its size agree on whether it is more than
a header. -/
theorem goesOnRight_iff {s : Scan} (hmagic : u32 s.buffer 0 = CompressionMagic) :
    GoesOnRight env k v s ↔ ¬ Decompresses env v s ∨
      (HeaderSize < u32 s.buffer 12 ↔ HeaderSize < swap32 s.buffer 12) := by
  obtain ⟨hgoes, hleft⟩ := @readTurn_compressed env v k s hmagic
  by_cases hdecompresses : Decompresses env v s
  · rw [or_iff_right (not_not.mpr hdecompresses)]
    -- the turn compares the raw size
    have hagain : (∃ s', readTurn env k v s = .again s') ↔ HeaderSize < u32 s.buffer 12 :=
      hgoes.trans (and_iff_left hdecompresses)
    have hright : HeaderSize < swap32 s.buffer 12 ∧ Decompresses env v s ↔
        HeaderSize < swap32 s.buffer 12 := and_iff_left hdecompresses
    constructor
    · intro h
      exact hagain.symm.trans (h.goes_on.trans hright)
    · intro hsame
      refine ⟨hagain.trans (hsame.trans hright.symm), fun s' hs' => ?_⟩
      obtain ⟨b, hb, hsize⟩ := hleft s' hs'
      exact ⟨b, hb, hsize ▸ (hsame.mp (hagain.mp ⟨s', hs'⟩)).le⟩
  -- nothing is decompressed, and nothing should be
  · have hstops : ¬ ∃ s', readTurn env k v s = .again s' := fun h => hdecompresses (hgoes.mp h).2
    refine iff_of_true ⟨iff_of_false hstops fun h => hdecompresses h.2, fun s' hs' => ?_⟩
      (.inl hdecompresses)
    exact absurd ⟨s', hs'⟩ hstops

/-- One byte, compressed: a stored block of zlib with its checksum. -/
def oneByte : Vnode where
  size := 8192
  byte := fun k =>
    if k < 384 then
      [99, 111, 109, 112, 0x6C, 0x7A, 0x78, 0x9C, 0, 0, 0, 0, 0, 0, 0, 1, 0, 0, 0, 12].getD k 0
    else [0x78, 1, 1, 1, 0, 0xFE, 0xFF, 0xAA, 0, 0xAB, 0, 0xAB].getD (k - 384) 0
  readable := fun _ _ => true
  compressedBuf := fun _ => true
  decompressedBuf := fun _ => true

/-- The first turn for that file. -/
def oneByteScan : Scan :=
  ⟨0, copy kextEnv.behind HeaderSize oneByte.byte, oneByte.image 0 0, none, 0⟩

theorem oneByte_decompresses : Decompresses kextEnv oneByte oneByteScan :=
  ⟨rfl, rfl, [0xAA], by decide⟩

theorem goesOnRight_iff_oneByte : GoesOnRight kextEnv 0 oneByte oneByteScan ↔
    ¬ Decompresses kextEnv oneByte oneByteScan ∨
      (HeaderSize < u32 oneByteScan.buffer 12 ↔ HeaderSize < swap32 oneByteScan.buffer 12) :=
  goesOnRight_iff (by decide)

/-- A header is copied from a `file_buf` of one byte. -/
theorem not_goesOnRight_oneByte : ¬ ∀ (env : Env) (k : ℕ) (v : Vnode) (s : Scan),
    u32 s.buffer 0 = CompressionMagic → GoesOnRight env k v s := by
  intro h
  have hmagic : u32 oneByteScan.buffer 0 = CompressionMagic := by decide
  obtain ⟨hgoes, -⟩ := @readTurn_compressed kextEnv oneByte 0 oneByteScan hmagic
  have hagain := hgoes.mpr ⟨by decide, oneByte_decompresses⟩
  have hsize := ((h kextEnv 0 oneByte oneByteScan hmagic).goes_on.mp hagain).1
  exact absurd hsize (by decide)

end Lilu.MachInfo
