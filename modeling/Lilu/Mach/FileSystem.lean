import Lilu.Prelude.Loop
import Lilu.Compression.RoundTrip
import Lilu.Mach.Header

/-!
# Images from the file system

The candidates for an image are tried one after another: a native image, a native slice of a fat
file, or a compressed image. What a compressed candidate decompresses to stays in `file_buf` until
another one is decompressed, also when the candidate is rejected. The symbols of the accepted image
are taken from there if there is anything, from the file otherwise.

## Main definitions

* `Image`: the bytes of an image, and their place
* `readMachHeader`: the header and the image of a candidate, and what it leaves in `file_buf`
* `initFromFileSystem`: the search, and the reading of the symbols
* `Right`: the symbols are those of the accepted image
* `Clean`: the accepted image was decompressed, or nothing decompressed is left

## Main results

* `readMachHeader_ok`: where a candidate's image is
* `right_iff`: when the symbols are those of the accepted image
-/

namespace Lilu.MachInfo

open Lilu.Kext (CString)
open Lilu.Compression (Decoders decode)

/-! ## Files and images -/

/-- A file as it is while a candidate is tried: its bytes, which reads succeed, and whether there is
memory for a copy of compressed contents, and for what they decompress to, by turn. -/
structure Vnode where
  size : ℕ
  byte : ℕ → UInt8
  readable : (off size : ℕ) → Bool
  compressedBuf : ℕ → Bool
  decompressedBuf : ℕ → Bool

/-- `readFileData`: all bytes that are asked for, or an error. -/
def Vnode.readFileData (v : Vnode) (buffer : Buffer) (off size : ℕ) : Option Buffer :=
  if v.readable off size ∧ off + size ≤ v.size then some (copy buffer size fun k => v.byte (off + k))
  else none

/-- Where bytes are from: the file of a candidate, or what it was decompressed to in some turn. -/
inductive Source where
  | file (candidate : ℕ)
  | decompressed (candidate turn : ℕ)
  deriving DecidableEq

/-- The bytes of an image from its start on, and where they are. -/
structure Image where
  byte : ℕ → UInt8
  source : Source
  base : ℕ

/-- `file_buf` with its size, which is not kept without it. -/
structure FileBuf where
  byte : ℕ → UInt8
  size : ℕ
  source : Source

/-- `sym_buf`, and where its bytes were taken from. -/
structure SymBuf where
  byte : ℕ → UInt8
  size : ℕ
  source : Source
  off : ℕ

/-- What does not change while candidates are tried: the settings, the running kernel, the decoders
and the memory behind the buffers. -/
structure Env where
  isKernel : Bool
  kernel_collection : Bool
  /-- The kernel is not older than Leopard. -/
  uuids : Bool
  allow_decompress : Bool
  /-- The header of the running kernel. -/
  running : Option Buffer
  decoders : Decoders
  behind : ℕ → UInt8
  machHeader : Bool
  symbols : Bool

structure State where
  syms : Symbols := {}
  file_buf : Option FileBuf := none
  fat_offset : ℕ := 0
  self_uuid : ℕ × ℕ := (0, 0)
  sym_buf : Option SymBuf := none

variable (env : Env)

/-! ## The header of a candidate -/

/-- The magic of compressed images, and the size of their header. -/
def CompressionMagic : ℕ := 0x706D6F63
def CompressionHeaderSize : ℕ := 384

/-- `Compression::decompress` to a new buffer, of which there may be none. -/
def decompress (granted : Bool) (compression dstlen : ℕ) (src : List UInt8) :
    Option (List UInt8) :=
  if granted then
    (decode env.decoders (UInt32.ofNat compression) dstlen src).bind fun out =>
      if out.length = dstlen then some out else none
  else none

/-- The state of the loop over what the header buffer has. -/
structure Scan where
  off : ℕ
  buffer : Buffer
  image : Image
  /-- What was assigned to `file_buf`, if anything was. -/
  left : Option (Option FileBuf)
  turns : ℕ

structure Accepted where
  header : Buffer
  fat_offset : ℕ
  image : Image

/-- What the reading of a header ends in. -/
structure Outcome where
  left : Option (Option FileBuf)
  accepted : Option Accepted

/-- The image in a file, from an offset on. -/
def Vnode.image (v : Vnode) (candidate off : ℕ) : Image :=
  ⟨fun k => v.byte (off + k), .file candidate, off⟩

/-- What a compressed image is decompressed to: the next turn's state, or the end. -/
def decompressTurn (candidate : ℕ) (v : Vnode) (s : Scan) (src : Buffer) : Turn Scan Outcome :=
  let dec := swap32 s.buffer 12
  let src := bytesAt src 0 (swap32 s.buffer 16)
  match decompress env (v.decompressedBuf s.turns) (u32 s.buffer 4) dec src with
  -- without contents `file_buf` is null, also if there was one before
  | none => .leave ⟨some none, none⟩
  | some out =>
    let source := Source.decompressed candidate s.turns
    let byte := fun k => out.getD k (env.behind k)
    .again { s with
      buffer := copy s.buffer HeaderSize byte
      image := ⟨byte, source, 0⟩
      left := some (some ⟨byte, dec, source⟩)
      turns := s.turns + 1 }

/-- A turn of the loop of `readMachHeader`. The recursion for a fat file is its last step, so it is
a turn with the header at another offset. -/
def readTurn (candidate : ℕ) (v : Vnode) (s : Scan) : Turn Scan Outcome :=
  let magic := u32 s.buffer 0
  if magic = MachMagicNative then .leave ⟨s.left, some ⟨s.buffer, s.off, s.image⟩⟩
  else if magic = FAT_CIGAM ∨ magic = FAT_MAGIC then
    -- this is what is to stop a recursion, but offset zero is let through
    if s.off ≠ 0 then .leave ⟨s.left, none⟩
    else
      match archOffset s.buffer with
      | none => .leave ⟨s.left, none⟩
      | some off =>
        match v.readFileData s.buffer off HeaderSize with
        | none => .leave ⟨s.left, none⟩
        -- the recursion fills the header buffer anew
        | some buffer => .again { s with off, buffer, image := v.image candidate off }
  else if magic = CompressionMagic then
    -- the copy of the compressed bytes needs a buffer of its own
    if env.allow_decompress ∧ v.compressedBuf s.turns then
      match v.readFileData env.behind (s.off + CompressionHeaderSize) (swap32 s.buffer 16) with
      | none => .leave ⟨s.left, none⟩
      | some src =>
        -- the size is compared in the file's byte order
        if u32 s.buffer 12 > HeaderSize then decompressTurn env candidate v s src
        else .leave ⟨s.left, none⟩
    else .leave ⟨s.left, none⟩
  else .leave ⟨s.left, none⟩

/-- `readMachHeader` of a candidate; `none` if it takes more turns than allowed. -/
def readMachHeader (fuel candidate : ℕ) (v : Vnode) : Option Outcome :=
  match v.readFileData env.behind 0 HeaderSize with
  | none => some ⟨none, none⟩
  | some buffer => loop (readTurn env candidate v) fuel ⟨0, buffer, v.image candidate 0, none, 0⟩

/-! ## The search -/

def loadUUID (m : State) (header : Buffer) : State × Bool :=
  if ¬ env.uuids then (m, true)
  else
    match getUUID header with
    | some p => ({ m with self_uuid := p }, true)
    | none => (m, false)

def isCurrentBinary (m : State) : Bool :=
  env.kernel_collection || !env.uuids || env.running.bind getUUID == some m.self_uuid

/-- The candidates are tried until one is accepted. -/
def search (fuel : ℕ) :
    ℕ → List (Option Vnode) → State → Option (State × Option (ℕ × Vnode × Accepted))
  | _, [], m => some (m, none)
  | k, none :: vs, m => search fuel (k + 1) vs m
  | k, some v :: vs, m =>
    match readMachHeader env fuel k v with
    | none => none
    | some r =>
      -- a rejected candidate keeps what was assigned to `file_buf`
      let m := { m with file_buf := r.left.getD m.file_buf }
      match r.accepted with
      | none => search fuel (k + 1) vs m
      | some a =>
        let m := { m with fat_offset := a.fat_offset }
        let (m, loaded) := loadUUID env m a.header
        if loaded && (!env.isKernel || isCurrentBinary env m) then some (m, some (k, v, a))
        else search fuel (k + 1) vs m

/-- The longest path, with its terminating zero. -/
def PATH_MAX : ℕ := 1024

/-- The paths that are looked up for a path: with the suffix, if there is one, and without. -/
def suffixed (suffix : Option CString) (path : CString) : List CString :=
  if path.length = 0 ∨ path.length ≥ PATH_MAX then []
  else
    match suffix with
    | some s => [(path ++ 46 :: s).take (PATH_MAX - 1), (path ++ 95 :: s).take (PATH_MAX - 1), path]
    | none => [path]

/-- The candidates of a list of paths; what is found under a path may depend on when it is looked
up. -/
def candidates (vnode_lookup : ℕ → CString → Option Vnode) (suffix : Option CString)
    (paths : List CString) : List (Option Vnode) :=
  (paths.flatMap (suffixed suffix)).zipIdx.map fun (path, k) => vnode_lookup k path

/-! ## The symbols -/

/-- `readSymbols` for a candidate's file: the state, and whether it succeeds. -/
def readSymbols (m : State) (v : Vnode) (candidate : ℕ) : State × Bool :=
  let fail := ({ m with sym_buf := none }, false)
  if env.symbols then
    match m.file_buf with
    | some b =>
      -- the bounds are checked for what is left, whichever candidate it is from
      if b.size ≥ m.syms.sym_size ∧ b.size - m.syms.sym_size ≥ m.syms.sym_fileoff then
        ({ m with
          sym_buf := some ⟨copy env.behind m.syms.sym_size fun k => b.byte (m.syms.sym_fileoff + k),
            m.syms.sym_size, b.source, m.syms.sym_fileoff⟩ }, true)
      else fail
    | none =>
      -- `off_t` has 64 bits
      let off := (m.fat_offset + m.syms.sym_fileoff) % 2 ^ 64
      match v.readFileData env.behind off m.syms.sym_size with
      | some byte =>
        ({ m with sym_buf := some ⟨byte, m.syms.sym_size, .file candidate, off⟩ }, true)
      | none => fail
  else fail

/-- `initFromFileSystem` with the candidates of its paths: the state, and whether it succeeds;
`none` if the reading of a header does not end. -/
def initFromCandidates (fuel : ℕ) (vs : List (Option Vnode)) (m : State) : Option (State × Bool) :=
  if env.machHeader then
    (search env fuel 0 vs m).map fun
      | (m, none) => (m, false)
      | (m, some (k, v, a)) =>
        let m := { m with syms := processMachHeader m.syms a.header }
        if m.syms.sym_fileoff ≠ 0 ∧ m.syms.symboltable_fileoff ≠ 0 then readSymbols env m v k
        else (m, false)
  else some (m, false)

def initFromFileSystem (fuel : ℕ) (vnode_lookup : ℕ → CString → Option Vnode)
    (suffix : Option CString) (paths : List CString) (m : State) : Option (State × Bool) :=
  initFromCandidates env fuel (candidates vnode_lookup suffix paths) m

/-! ## The accepted candidate -/

/-- A header with a UUID, which is the running kernel's if it is to be. -/
def suits (header : Buffer) : Bool :=
  (!env.uuids || (getUUID header).isSome) && (!env.isKernel || (env.kernel_collection ||
    !env.uuids || env.running.bind getUUID == getUUID header))

variable (fuel : ℕ) (vs : List (Option Vnode))

/-- The first candidate with an image that suits. -/
structure Chosen (k : ℕ) (v : Vnode) (r : Outcome) (a : Accepted) : Prop where
  listed : vs[k]? = some (some v)
  outcome : readMachHeader env fuel k v = some r
  accepted : r.accepted = some a
  suits : suits env a.header = true
  first : ∀ j < k, ∀ w, vs[j]? = some (some w) → ∀ r', readMachHeader env fuel j w = some r' →
    ∀ a', r'.accepted = some a' → MachInfo.suits env a'.header = false

/-- What candidates leave in `file_buf`: the last that was decompressed, if that did not fail. -/
def leftFrom : ℕ → List (Option Vnode) → Option FileBuf → Option FileBuf
  | _, [], left => left
  | k, none :: vs, left => leftFrom (k + 1) vs left
  | k, some v :: vs, left =>
    leftFrom (k + 1) vs (((readMachHeader env fuel k v).bind (·.left)).getD left)

/-- **Right symbols**: they are the bytes of the accepted image at `sym_fileoff`, and taken from
there. -/
def Right (m : State) : Prop :=
  ∃ k v r a, Chosen env fuel vs k v r a ∧ ∃ s, m.sym_buf = some s ∧ s.size = m.syms.sym_size ∧
    s.source = a.image.source ∧ s.off = a.image.base + m.syms.sym_fileoff ∧
    ∀ i < s.size, s.byte i = a.image.byte (m.syms.sym_fileoff + i)

/-- The accepted image was decompressed, or nothing decompressed is left of the candidates up to it,
and the symbols' offset in its file has 64 bits. -/
def Clean (m : State) : Prop :=
  ∀ k v r a, Chosen env fuel vs k v r a → (∃ t, a.image.source = .decompressed k t) ∨
    leftFrom env fuel 0 (vs.take (k + 1)) none = none ∧
      a.fat_offset + (processMachHeader m.syms a.header).sym_fileoff < 2 ^ 64

variable {env fuel vs}

/-! ## Where an image is -/

/-- The invariant of the loop of `readMachHeader`: the buffer's image is in the file, at the
header's offset, or it is what was decompressed last. -/
structure Scan.Ok (k : ℕ) (v : Vnode) (s : Scan) : Prop where
  image : s.image = v.image k s.off ∨
    ∃ b, s.left = some (some b) ∧ s.image = ⟨b.byte, b.source, 0⟩
  source : ∀ b, s.left = some (some b) → ∃ t, b.source = .decompressed k t

/-- Where the image of an accepted candidate is. -/
structure Outcome.Ok (k : ℕ) (v : Vnode) (r : Outcome) : Prop where
  image : ∀ a, r.accepted = some a → a.image = v.image k a.fat_offset ∨
    ∃ b, r.left = some (some b) ∧ a.image = ⟨b.byte, b.source, 0⟩
  source : ∀ b, r.left = some (some b) → ∃ t, b.source = .decompressed k t

variable {k : ℕ} {v : Vnode}

theorem Scan.Ok.fails {s : Scan} (h : s.Ok k v) : Outcome.Ok k v ⟨s.left, none⟩ :=
  ⟨nofun, h.source⟩

/-- The invariant after a turn. -/
def TurnOk (k : ℕ) (v : Vnode) : Turn Scan Outcome → Prop
  | .again s => s.Ok k v
  | .leave r => r.Ok k v

theorem decompressTurn_ok {s : Scan} {src : Buffer} : TurnOk k v (decompressTurn env k v s src) := by
  rcases hout : decompress env (v.decompressedBuf s.turns) (u32 s.buffer 4) (swap32 s.buffer 12)
    (bytesAt src 0 (swap32 s.buffer 16)) with _ | out <;> simp only [decompressTurn, hout]
  · exact ⟨nofun, nofun⟩
  · refine ⟨.inr ⟨_, rfl, rfl⟩, fun b hb => ⟨s.turns, ?_⟩⟩
    obtain rfl := Option.some.inj (Option.some.inj hb)
    rfl

theorem readTurn_ok (env : Env) {s : Scan} (h : s.Ok k v) : TurnOk k v (readTurn env k v s) := by
  unfold readTurn
  dsimp only
  split_ifs with hnative hfat hrecursion hcompressed hallowed hsize
  · refine ⟨fun a ha => ?_, h.source⟩
    obtain rfl := Option.some.inj ha
    exact h.image
  · exact h.fails
  · rcases archOffset s.buffer with _ | off
    · exact h.fails
    · dsimp only
      rcases v.readFileData s.buffer off HeaderSize with _ | buffer
      · exact h.fails
      · exact ⟨.inl rfl, h.source⟩
  · rcases v.readFileData env.behind (s.off + CompressionHeaderSize) (swap32 s.buffer 16) with _ | src
    · exact h.fails
    · exact decompressTurn_ok
  · rcases v.readFileData env.behind (s.off + CompressionHeaderSize) (swap32 s.buffer 16) with _ | src
    · exact h.fails
    · exact h.fails
  · exact h.fails
  · exact h.fails

/-- **Where a candidate's image is**: in its file, or in what it was decompressed to last. -/
theorem readMachHeader_ok {r : Outcome} (h : readMachHeader env fuel k v = some r) : r.Ok k v := by
  unfold readMachHeader at h
  rcases hread : v.readFileData env.behind 0 HeaderSize with _ | buffer <;> rw [hread] at h
  · obtain rfl := Option.some.inj h
    exact ⟨nofun, nofun⟩
  · have hstart : (⟨0, buffer, v.image k 0, none, 0⟩ : Scan).Ok k v := ⟨.inl rfl, nofun⟩
    refine loop_partial (fun s : Scan => s.Ok k v) (fun s s' hs hturn => ?_)
      (fun s r hs hturn => ?_) hstart h
    · have hok := readTurn_ok env hs
      rwa [hturn] at hok
    · have hok := readTurn_ok env hs
      rwa [hturn] at hok

/-! ## The search -/

/-- A candidate is accepted if its header suits. -/
theorem loadUUID_and_isCurrentBinary (env : Env) (m : State) (header : Buffer) :
    ((loadUUID env m header).2 &&
      (!env.isKernel || isCurrentBinary env (loadUUID env m header).1)) = suits env header := by
  cases huuids : env.uuids with
  | false => simp [loadUUID, isCurrentBinary, suits, huuids]
  | true =>
    cases huuid : getUUID header with
    | none => simp [loadUUID, suits, huuids, huuid]
    | some p => simp [loadUUID, isCurrentBinary, suits, huuids, huuid]

/-- A candidate's UUID is all that is kept of it. -/
theorem loadUUID_fst (env : Env) (m : State) (header : Buffer) : ∃ p, (loadUUID env m header).1 =
    { m with self_uuid := p } := by
  unfold loadUUID
  split_ifs
  · rcases getUUID header with _ | p
    · exact ⟨m.self_uuid, rfl⟩
    · exact ⟨p, rfl⟩
  · exact ⟨m.self_uuid, rfl⟩

/-- What a search that finds something has found, among the candidates from index `k` on. -/
structure Finds (env : Env) (fuel k : ℕ) (vs : List (Option Vnode)) (m m' : State)
    (j : ℕ) (v : Vnode) (r : Outcome) (a : Accepted) : Prop where
  listed : vs[j]? = some (some v)
  outcome : readMachHeader env fuel (k + j) v = some r
  accepted : r.accepted = some a
  suits : suits env a.header = true
  first : ∀ i < j, ∀ w, vs[i]? = some (some w) → ∀ r', readMachHeader env fuel (k + i) w = some r' →
    ∀ a', r'.accepted = some a' → MachInfo.suits env a'.header = false
  left : m'.file_buf = leftFrom env fuel k (vs.take (j + 1)) m.file_buf
  fat_offset : m'.fat_offset = a.fat_offset
  syms : m'.syms = m.syms

/-- A candidate before those of a search: what it leaves is there when the search begins. -/
theorem Finds.cons {o : Option Vnode} {m m₁ m' : State} {j : ℕ} {r : Outcome} {a : Accepted}
    (h : Finds env fuel (k + 1) vs m₁ m' j v r a) (hsyms : m₁.syms = m.syms)
    (hleft : ∀ ws, leftFrom env fuel k (o :: ws) m.file_buf =
      leftFrom env fuel (k + 1) ws m₁.file_buf)
    (hfirst : ∀ w, o = some w → ∀ r', readMachHeader env fuel k w = some r' →
      ∀ a', r'.accepted = some a' → MachInfo.suits env a'.header = false) :
    Finds env fuel k (o :: vs) m m' (j + 1) v r a := by
  have hshift : ∀ i, k + 1 + i = k + (i + 1) := fun i => by omega
  refine ⟨h.listed, hshift j ▸ h.outcome, h.accepted, h.suits, fun i hi w hw r' hr' => ?_,
    ?_, h.fat_offset, h.syms.trans hsyms⟩
  · cases i with
    | zero => exact hfirst w (Option.some.inj hw) r' hr'
    | succ i => exact h.first i (by omega) w hw r' (hshift i ▸ hr')
  · rw [h.left, List.take_succ_cons, hleft]

theorem search_finds : ∀ (vs : List (Option Vnode)) (k : ℕ) (m m' : State) (n : ℕ) (v : Vnode)
    (a : Accepted), search env fuel k vs m = some (m', some (n, v, a)) →
    ∃ j r, n = k + j ∧ Finds env fuel k vs m m' j v r a := by
  intro vs
  induction vs with
  | nil =>
    intro k m m' n v a h
    cases h
  | cons o vs ih =>
    intro k m m' n v a h
    have hcons : ∀ m₁ : State, search env fuel (k + 1) vs m₁ = some (m', some (n, v, a)) →
        m₁.syms = m.syms → (∀ ws, leftFrom env fuel k (o :: ws) m.file_buf =
          leftFrom env fuel (k + 1) ws m₁.file_buf) →
        (∀ w, o = some w → ∀ r', readMachHeader env fuel k w = some r' →
          ∀ a', r'.accepted = some a' → MachInfo.suits env a'.header = false) →
        ∃ j r, n = k + j ∧ Finds env fuel k (o :: vs) m m' j v r a := by
      intro m₁ h hsyms hleft hfirst
      obtain ⟨j, r, rfl, hfinds⟩ := ih (k + 1) m₁ m' n v a h
      exact ⟨j + 1, r, by omega, hfinds.cons hsyms hleft hfirst⟩
    cases o with
    | none => exact hcons m h rfl (fun _ => rfl) nofun
    | some w =>
      rcases hread : readMachHeader env fuel k w with _ | r
      · simp [search, hread] at h
      · have hleft : ∀ ws, leftFrom env fuel k (some w :: ws) m.file_buf =
            leftFrom env fuel (k + 1) ws (r.left.getD m.file_buf) := by
          intro ws
          rw [leftFrom, hread, Option.bind_some]
        rcases hacc : r.accepted with _ | a'
        · refine hcons { m with file_buf := r.left.getD m.file_buf } ?_ rfl hleft ?_
          · simpa [search, hread, hacc] using h
          · rintro w' hw r' hr' a'' ha''
            obtain rfl := Option.some.inj hw
            obtain rfl := Option.some.inj (hr'.symm.trans hread)
            rw [hacc] at ha''
            cases ha''
        · obtain ⟨p, hp⟩ := loadUUID_fst env
            { m with file_buf := r.left.getD m.file_buf, fat_offset := a'.fat_offset } a'.header
          have hsuits := loadUUID_and_isCurrentBinary env
            { m with file_buf := r.left.getD m.file_buf, fat_offset := a'.fat_offset } a'.header
          have hrun : search env fuel k (some w :: vs) m =
              if suits env a'.header then some ((loadUUID env { m with
                file_buf := r.left.getD m.file_buf, fat_offset := a'.fat_offset } a'.header).1,
                some (k, w, a'))
              else search env fuel (k + 1) vs (loadUUID env { m with
                file_buf := r.left.getD m.file_buf, fat_offset := a'.fat_offset } a'.header).1 := by
            rw [← hsuits, search, hread]
            dsimp only
            rw [hacc]
          rw [hrun, hp] at h
          split_ifs at h with hsuit
          · cases h
            exact ⟨0, r, rfl, rfl, hread, hacc, hsuit, nofun, (hleft []).symm, rfl, rfl⟩
          · refine hcons _ h rfl hleft ?_
            rintro w' hw r' hr' a'' ha''
            obtain rfl := Option.some.inj hw
            obtain rfl := Option.some.inj (hr'.symm.trans hread)
            obtain rfl := Option.some.inj (hacc.symm.trans ha'')
            simpa using hsuit

/-! ## What is left -/

theorem leftFrom_append (xs ys : List (Option Vnode)) : ∀ (k : ℕ) (left : Option FileBuf),
    leftFrom env fuel k (xs ++ ys) left =
      leftFrom env fuel (k + xs.length) ys (leftFrom env fuel k xs left) := by
  induction xs with
  | nil => exact fun _ _ => rfl
  | cons o xs ih =>
    intro k left
    have hlen : k + (o :: xs).length = k + 1 + xs.length := by rw [List.length_cons]; omega
    rw [hlen]
    cases o with
    | none => exact ih (k + 1) left
    | some w => exact ih (k + 1) _

/-- The last candidate decides, if it was decompressed. -/
theorem leftFrom_take {j : ℕ} {r : Outcome} (hv : vs[j]? = some (some v))
    (hr : readMachHeader env fuel j v = some r) (left : Option FileBuf) :
    leftFrom env fuel 0 (vs.take (j + 1)) left =
      r.left.getD (leftFrom env fuel 0 (vs.take j) left) := by
  obtain ⟨hj, hget⟩ := List.getElem?_eq_some_iff.mp hv
  have hlen : (vs.take j).length = j := by rw [List.length_take]; omega
  rw [List.take_succ_eq_append_getElem hj, hget, leftFrom_append, hlen, Nat.zero_add, leftFrom, hr]
  rfl

/-- What is left was decompressed. -/
theorem leftFrom_source : ∀ (vs : List (Option Vnode)) (k : ℕ) (left : Option FileBuf),
    (∀ b, left = some b → ∃ i t, b.source = .decompressed i t) →
    ∀ b, leftFrom env fuel k vs left = some b → ∃ i t, b.source = .decompressed i t := by
  intro vs
  induction vs with
  | nil => exact fun _ _ h => h
  | cons o vs ih =>
    intro k left h
    cases o with
    | none => exact ih (k + 1) left h
    | some w =>
      refine ih (k + 1) _ fun b hb => ?_
      rcases hread : readMachHeader env fuel k w with _ | r <;> rw [hread] at hb
      · exact h b hb
      · rw [Option.bind_some] at hb
        rcases hleft : r.left with _ | o <;> rw [hleft] at hb
        · exact h b hb
        · obtain ⟨t, ht⟩ := (readMachHeader_ok hread).source b (hleft.trans (congrArg some hb))
          exact ⟨k, t, ht⟩

/-! ## The symbols of the accepted image -/

theorem Chosen.unique {k' : ℕ} {v' : Vnode} {r r' : Outcome} {a a' : Accepted}
    (h : Chosen env fuel vs k v r a) (h' : Chosen env fuel vs k' v' r' a') :
    k = k' ∧ a = a' := by
  rcases Nat.lt_trichotomy k k' with hlt | rfl | hlt
  · have := h'.first k hlt v h.listed r h.outcome a h.accepted
    rw [h.suits] at this
    cases this
  · obtain rfl := Option.some.inj (Option.some.inj (h.listed.symm.trans h'.listed))
    obtain rfl := Option.some.inj (h.outcome.symm.trans h'.outcome)
    exact ⟨rfl, Option.some.inj (h.accepted.symm.trans h'.accepted)⟩
  · have := h.first k' hlt v' h'.listed r' h'.outcome a' h'.accepted
    rw [h'.suits] at this
    cases this

/-- No other image is accepted, so the right symbols are those of this one. -/
theorem Chosen.right_iff_symbols {m : State} {r : Outcome} {a : Accepted}
    (h : Chosen env fuel vs k v r a) :
    Right env fuel vs m ↔ ∃ s, m.sym_buf = some s ∧ s.size = m.syms.sym_size ∧
      s.source = a.image.source ∧ s.off = a.image.base + m.syms.sym_fileoff ∧
      ∀ i < s.size, s.byte i = a.image.byte (m.syms.sym_fileoff + i) := by
  constructor
  · rintro ⟨k', v', r', a', h', hs⟩
    obtain ⟨-, rfl⟩ := h.unique h'
    exact hs
  · exact fun hs => ⟨k, v, r, a, h, hs⟩

theorem Chosen.clean_iff {m : State} {r : Outcome} {a : Accepted} (h : Chosen env fuel vs k v r a) :
    Clean env fuel vs m ↔ (∃ t, a.image.source = .decompressed k t) ∨
      leftFrom env fuel 0 (vs.take (k + 1)) none = none ∧
        a.fat_offset + (processMachHeader m.syms a.header).sym_fileoff < 2 ^ 64 := by
  constructor
  · exact fun hclean => hclean k v r a h
  · rintro hc k' v' r' a' h'
    obtain ⟨rfl, rfl⟩ := h.unique h'
    exact hc

/-- What a successful reading of the symbols has read. -/
theorem readSymbols_cases {m m' : State} (h : readSymbols env m v k = (m', true)) :
    m'.syms = m.syms ∧
    ((∃ b, m.file_buf = some b ∧ m'.sym_buf = some ⟨copy env.behind m.syms.sym_size fun i =>
        b.byte (m.syms.sym_fileoff + i), m.syms.sym_size, b.source, m.syms.sym_fileoff⟩) ∨
      (m.file_buf = none ∧ m'.sym_buf = some ⟨copy env.behind m.syms.sym_size fun i =>
        v.byte ((m.fat_offset + m.syms.sym_fileoff) % 2 ^ 64 + i), m.syms.sym_size, .file k,
        (m.fat_offset + m.syms.sym_fileoff) % 2 ^ 64⟩)) := by
  unfold readSymbols at h
  dsimp only at h
  split_ifs at h
  · rcases hbuf : m.file_buf with _ | b <;> rw [hbuf] at h
    · dsimp only [Vnode.readFileData] at h
      split_ifs at h
      · cases h
        exact ⟨rfl, .inr ⟨rfl, rfl⟩⟩
      · cases h
    · dsimp only at h
      split_ifs at h
      · cases h
        exact ⟨rfl, .inl ⟨b, rfl, rfl⟩⟩
      · cases h
  · cases h

/-- A successful run: the accepted candidate, and what its symbols were read from. -/
theorem initFromCandidates_cases {m m' : State} (hm : m.file_buf = none)
    (h : initFromCandidates env fuel vs m = some (m', true)) :
    ∃ k v r a m₁, Chosen env fuel vs k v r a ∧ readSymbols env m₁ v k = (m', true) ∧
      m₁.file_buf = leftFrom env fuel 0 (vs.take (k + 1)) none ∧ m₁.fat_offset = a.fat_offset ∧
      m₁.syms = processMachHeader m.syms a.header := by
  unfold initFromCandidates at h
  split_ifs at h
  · rcases hsearch : search env fuel 0 vs m with _ | ⟨m₀, _ | ⟨k, v, a⟩⟩ <;> rw [hsearch] at h
    · cases h
    · cases h
    · obtain ⟨j, r, rfl, hfinds⟩ := search_finds vs 0 m m₀ k v a hsearch
      rw [Option.map_some, Option.some.injEq] at h
      dsimp only at h
      split_ifs at h with hsyms
      · refine ⟨0 + j, v, r, a, _, ?_, h, ?_, hfinds.fat_offset, ?_⟩
        · rw [Nat.zero_add]
          refine ⟨hfinds.listed, Nat.zero_add j ▸ hfinds.outcome, hfinds.accepted, hfinds.suits,
            fun i hi w hw r' hr' => ?_⟩
          exact hfinds.first i hi w hw r' ((Nat.zero_add i).symm ▸ hr')
        · rw [Nat.zero_add, ← hm]
          exact hfinds.left
        · exact congrArg (processMachHeader · a.header) hfinds.syms
      · cases h
  · cases h

theorem initFromCandidates_right_iff {m m' : State} (hm : m.file_buf = none)
    (h : initFromCandidates env fuel vs m = some (m', true)) :
    Right env fuel vs m' ↔ Clean env fuel vs m := by
  obtain ⟨k, v, r, a, m₁, hchosen, hread, hbuf, hfat, hsyms⟩ := initFromCandidates_cases hm h
  have hok := readMachHeader_ok hchosen.outcome
  have hleft := leftFrom_take hchosen.listed hchosen.outcome none
  obtain ⟨hsyms', hsource⟩ := readSymbols_cases hread
  rw [hchosen.right_iff_symbols, hchosen.clean_iff]
  rcases hok.image a hchosen.accepted with himage | ⟨b, hb, himage⟩
  · have hfile : a.image.source = .file k := by rw [himage]; rfl
    rcases hsource with ⟨b, hb, hsym⟩ | ⟨hnone, hsym⟩
    · -- an earlier candidate's contents are taken for the file's
      obtain ⟨i, t, ht⟩ := leftFrom_source _ 0 none nofun b (hbuf.symm.trans hb)
      refine iff_of_false ?_ ?_
      · rintro ⟨s, hs, -, hs', -⟩
        obtain rfl := Option.some.inj (hsym.symm.trans hs)
        exact absurd (ht.symm.trans (hs'.trans hfile)) nofun
      · rintro (⟨t, ht'⟩ | ⟨hnone, -⟩)
        · exact absurd (hfile.symm.trans ht') nofun
        · exact absurd (hb.symm.trans (hbuf.trans hnone)) nofun
    · rw [hfat, hsyms] at hsym
      have hbase : a.image.base = a.fat_offset := by rw [himage]; rfl
      constructor
      · rintro ⟨s, hs, -, -, hoff, -⟩
        obtain rfl := Option.some.inj (hsym.symm.trans hs)
        refine .inr ⟨hbuf.symm.trans hnone, ?_⟩
        rw [hbase, hsyms', hsyms] at hoff
        rw [← hoff]
        exact Nat.mod_lt _ (by positivity)
      · rintro (⟨t, ht'⟩ | ⟨-, hlt⟩)
        · exact absurd (hfile.symm.trans ht') nofun
        · rw [Nat.mod_eq_of_lt hlt] at hsym
          refine ⟨_, hsym, by rw [hsyms', hsyms], hfile.symm, ?_, fun i hi => ?_⟩
          · rw [hbase, hsyms', hsyms]
          · simp only [himage, hsyms', hsyms, Vnode.image] at hi ⊢
            rw [copy_of_lt hi, Nat.add_assoc]
  · -- the last contents are the image's own
    have hlast : m₁.file_buf = some b := by rw [hbuf, hleft, hb]; rfl
    obtain ⟨t, ht⟩ := hok.source b hb
    rcases hsource with ⟨b', hb', hsym⟩ | ⟨hnone, -⟩
    · obtain rfl := Option.some.inj (hlast.symm.trans hb')
      refine iff_of_true ⟨_, hsym, by rw [hsyms'], by rw [himage], ?_, fun i hi => ?_⟩
        (.inl ⟨t, by rw [himage]; exact ht⟩)
      · rw [himage, hsyms', Nat.zero_add]
      · simp only [himage, hsyms'] at hi ⊢
        rw [copy_of_lt hi]
    · exact absurd (hlast.symm.trans hnone) nofun

/-- **The symbols**: when the search succeeds, they are those of the accepted image if and only if
it was decompressed or nothing decompressed is left. -/
theorem right_iff {vnode_lookup : ℕ → CString → Option Vnode} {suffix : Option CString}
    {paths : List CString} {m m' : State} (hm : m.file_buf = none)
    (h : initFromFileSystem env fuel vnode_lookup suffix paths m = some (m', true)) :
    Right env fuel (candidates vnode_lookup suffix paths) m' ↔
      Clean env fuel (candidates vnode_lookup suffix paths) m :=
  initFromCandidates_right_iff hm h

/-! ## A compressed candidate before a native one -/

section Leftover

/-- 8448 zeros, compressed: a stored block of zlib with its checksum. -/
def storedFile : Vnode where
  size := 8843
  byte := fun k =>
    if k < 384 then
      [99, 111, 109, 112, 0x6C, 0x7A, 0x78, 0x9C, 0, 0, 0, 0, 0, 0, 0x21, 0, 0, 0, 0x21, 0x0B].getD k 0
    else if k < 391 then [0x78, 1, 1, 0, 0x21, 0xFF, 0xDE].getD (k - 384) 0
    else if k < 8839 then 0
    else [0x21, 0, 0, 1].getD (k - 8839) 0
  readable := fun _ _ => true
  compressedBuf := fun _ => true
  decompressedBuf := fun _ => true

/-- A native image with a UUID, a byte of symbols at 8192, and a symbol table. -/
def nativeFile : Vnode where
  size := 8193
  byte := fun k =>
    if k = 8192 then 0xAA
    else
      [0xCF, 0xFA, 0xED, 0xFE, 7, 0, 0, 1, 3, 0, 0, 0, 6, 0, 0, 0,
        3, 0, 0, 0, 120, 0, 0, 0, 0, 0, 0, 0, 0, 0, 0, 0,
        0x1B, 0, 0, 0, 24, 0, 0, 0, 1, 2, 3, 4, 5, 6, 7, 8, 9, 10, 11, 12, 13, 14, 15, 16,
        0x19, 0, 0, 0, 72, 0, 0, 0, 95, 95, 76, 73, 78, 75, 69, 68, 73, 84, 0, 0, 0, 0, 0, 0,
        0, 0, 0, 0, 0, 0, 0, 0, 0, 0, 0, 0, 0, 0, 0, 0,
        0, 32, 0, 0, 0, 0, 0, 0, 1, 0, 0, 0, 0, 0, 0, 0, 0, 0, 0, 0, 0, 0, 0, 0,
        0, 0, 0, 0, 0, 0, 0, 0,
        2, 0, 0, 0, 24, 0, 0, 0, 0, 32, 0, 0, 0, 0, 0, 0, 1, 32, 0, 0, 0, 0, 0, 0].getD k 0
  readable := fun _ _ => true
  compressedBuf := fun _ => true
  decompressedBuf := fun _ => true

/-- A kext's settings; zlib is that of stored blocks. -/
def kextEnv : Env where
  isKernel := false
  kernel_collection := false
  uuids := true
  allow_decompress := true
  running := none
  decoders := ⟨fun _ _ => [], fun dstlen src => (src.drop 7).take dstlen, fun _ => 0⟩
  behind := fun _ => 0
  machHeader := true
  symbols := true

/-- The compressed file is found under the path `/a`, the native one under `/b`. -/
def lookupTwo (_ : ℕ) (path : CString) : Option Vnode :=
  if path = [47, 97] then some storedFile
  else if path = [47, 98] then some nativeFile
  else none

def nativeHeader : Buffer :=
  copy kextEnv.behind HeaderSize fun k => nativeFile.byte (0 + k)

theorem readMachHeader_native (k : ℕ) : readMachHeader kextEnv 10 k nativeFile =
    some ⟨none, some ⟨nativeHeader, 0, nativeFile.image k 0⟩⟩ := by
  have hread : nativeFile.readFileData kextEnv.behind 0 HeaderSize = some nativeHeader := rfl
  have hmagic : u32 nativeHeader 0 = MachMagicNative := by decide
  rw [readMachHeader, hread]
  refine loop_succ_leave ?_ 9
  rw [readTurn, if_pos hmagic]

def storedHeader : Buffer :=
  copy kextEnv.behind HeaderSize fun k => storedFile.byte (0 + k)

/-- The compressed contents, as they are read. -/
def storedContents : Buffer :=
  copy kextEnv.behind 8459 fun k => storedFile.byte (0 + CompressionHeaderSize + k)

theorem decompress_stored :
    decompress kextEnv true 0x9C787A6C 8448 (bytesAt storedContents 0 8459) =
      some (List.replicate 8448 0) := by
  have hzeros : ((bytesAt storedContents 0 8459).drop 7).take 8448 = List.replicate 8448 0 := by
    refine List.eq_replicate_iff.mpr ⟨by simp [bytesAt], fun b hb => ?_⟩
    obtain ⟨i, hi, rfl⟩ := List.mem_iff_getElem.mp hb
    have hi : i < 8448 := (List.length_take_le 8448 _).trans_lt' hi
    rw [List.getElem_take, List.getElem_drop]
    simp only [bytesAt, List.getElem_map, List.getElem_range, storedContents, copy, storedFile,
      CompressionHeaderSize]
    rw [if_pos (by omega), if_neg (by omega), if_neg (by omega), if_pos (by omega)]
  have hmode : UInt32.ofNat 0x9C787A6C = Compression.ModeZLIB := by decide
  have hdecode : decode kextEnv.decoders (UInt32.ofNat 0x9C787A6C) 8448
      (bytesAt storedContents 0 8459) = some (List.replicate 8448 0) := by
    have hzlib : ∀ dstlen src, kextEnv.decoders.zlib dstlen src = (src.drop 7).take dstlen :=
      fun _ _ => rfl
    rw [hmode, decode, if_neg (by decide), if_neg (by decide), if_pos rfl, hzlib, hzeros]
  rw [decompress, if_pos rfl, hdecode, Option.bind_some, if_pos List.length_replicate]

/-- The zeros are no image, but they stay in `file_buf`. -/
theorem readMachHeader_stored (k : ℕ) : readMachHeader kextEnv 10 k storedFile =
    some ⟨some (some ⟨fun _ => 0, 8448, .decompressed k 0⟩), none⟩ := by
  have hread : storedFile.readFileData kextEnv.behind 0 HeaderSize = some storedHeader := rfl
  have hcontents : storedFile.readFileData kextEnv.behind (0 + CompressionHeaderSize) 8459 =
      some storedContents := rfl
  have hzeros : (fun i => (List.replicate 8448 (0 : UInt8)).getD i (kextEnv.behind i)) =
      fun _ => 0 := by
    funext i
    rw [List.getD_eq_getElem?_getD, List.getElem?_replicate]
    split_ifs <;> rfl
  have hmagic : u32 storedHeader 0 = CompressionMagic ∧ u32 storedHeader 4 = 0x9C787A6C ∧
      u32 storedHeader 12 = 0x210000 ∧ swap32 storedHeader 12 = 8448 ∧
      swap32 storedHeader 16 = 8459 := by decide
  obtain ⟨hcomp, hmode, hraw, hdec, hlen⟩ := hmagic
  have hturn : readTurn kextEnv k storedFile ⟨0, storedHeader, storedFile.image k 0, none, 0⟩ =
      .again ⟨0, copy storedHeader HeaderSize fun _ => 0, ⟨fun _ => 0, .decompressed k 0, 0⟩,
        some (some ⟨fun _ => 0, 8448, .decompressed k 0⟩), 1⟩ := by
    have hgranted : storedFile.decompressedBuf 0 = true := rfl
    rw [readTurn]
    simp only [hcomp, hraw, hlen, hcontents]
    rw [if_neg (by decide), if_neg (by decide), if_pos trivial, if_pos (by decide),
      if_pos (by decide), decompressTurn]
    simp only [hmode, hdec, hlen, hgranted, decompress_stored, hzeros]
  have hend : u32 (copy storedHeader HeaderSize fun _ => 0) 0 = 0 := by decide
  rw [readMachHeader, hread]
  refine (loop_succ_again hturn 9).trans (loop_succ_leave ?_ 8)
  simp [readTurn, hend, MachMagicNative, FAT_CIGAM, FAT_MAGIC, CompressionMagic]

theorem candidates_two : candidates lookupTwo none [[47, 97], [47, 98]] =
    [some storedFile, some nativeFile] := rfl

/-- What is taken from the native header. -/
theorem nativeHeader_facts :
    getUUID nativeHeader = some (0x0807060504030201, 0x100F0E0D0C0B0A09) ∧
      processMachHeader {} nativeHeader = ⟨0, 8192, 1, 8192, 0, 8193, 0⟩ := by
  constructor <;> decide

/-- The state in the end: the native image's offsets, with symbols of zeros. -/
def leftoverState : State where
  syms := ⟨0, 8192, 1, 8192, 0, 8193, 0⟩
  file_buf := some ⟨fun _ => 0, 8448, .decompressed 0 0⟩
  self_uuid := (0x0807060504030201, 0x100F0E0D0C0B0A09)
  sym_buf := some ⟨copy kextEnv.behind 1 fun _ => 0, 1, .decompressed 0 0, 8192⟩

theorem initFromFileSystem_two :
    initFromFileSystem kextEnv 10 lookupTwo none [[47, 97], [47, 98]] {} =
      some (leftoverState, true) := by
  obtain ⟨huuid, hsyms⟩ := nativeHeader_facts
  have hsearch : search kextEnv 10 0 [some storedFile, some nativeFile] {} =
      some ({ leftoverState with syms := {}, sym_buf := none },
        some (1, nativeFile, ⟨nativeHeader, 0, nativeFile.image 1 0⟩)) := by
    simp only [search, readMachHeader_stored, readMachHeader_native, loadUUID, huuid]
    rfl
  rw [initFromFileSystem, candidates_two, initFromCandidates,
    if_pos (show kextEnv.machHeader = true from rfl), hsearch, Option.map_some]
  simp only [hsyms, leftoverState]
  rfl

/-- The compressed file has no image, so the native one is chosen. -/
theorem chosen_two {k : ℕ} {v : Vnode} {r : Outcome} {a : Accepted}
    (h : Chosen kextEnv 10 [some storedFile, some nativeFile] k v r a) :
    a = ⟨nativeHeader, 0, nativeFile.image 1 0⟩ := by
  have hk := h.listed
  have hread := h.outcome
  have hacc := h.accepted
  clear h
  rcases k with _ | _ | k
  · rw [List.getElem?_cons_zero, Option.some.injEq, Option.some.injEq] at hk
    rw [← hk, readMachHeader_stored, Option.some.injEq] at hread
    rw [← hread] at hacc
    cases hacc
  · rw [List.getElem?_cons_succ, List.getElem?_cons_zero, Option.some.injEq, Option.some.injEq] at hk
    rw [← hk, readMachHeader_native, Option.some.injEq] at hread
    rw [← hread, Option.some.injEq] at hacc
    exact hacc.symm
  · simp at hk

theorem right_iff_two : Right kextEnv 10 (candidates lookupTwo none [[47, 97], [47, 98]])
      leftoverState ↔ Clean kextEnv 10 (candidates lookupTwo none [[47, 97], [47, 98]]) {} :=
  right_iff rfl initFromFileSystem_two

/-- **The defect**: the symbols of the native image are the zeros that are left of the compressed
file. -/
theorem not_right_two : ∃ m, initFromFileSystem kextEnv 10 lookupTwo none [[47, 97], [47, 98]] {} =
      some (m, true) ∧ ¬ Right kextEnv 10 (candidates lookupTwo none [[47, 97], [47, 98]]) m := by
  refine ⟨leftoverState, initFromFileSystem_two, ?_⟩
  rintro ⟨k, v, r, a, hchosen, s, hs, hsize, -, -, hbytes⟩
  rw [candidates_two] at hchosen
  obtain rfl := chosen_two hchosen
  rw [leftoverState, Option.some.injEq] at hs
  have hbyte := hbytes 0 (by rw [← hs]; exact Nat.one_pos)
  rw [← hs] at hbyte
  exact absurd hbyte (by decide)

end Leftover

end Lilu.MachInfo
