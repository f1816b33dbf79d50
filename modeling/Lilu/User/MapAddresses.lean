import Lilu.Util.Strstr
import Lilu.User.LoadFiles

/-!
# The map of the shared cache

The map of the shared cache names each image on a line of its own, and the addresses of its segments
on the lines behind. `mapAddresses` looks at each line for a requested path, and from there on for
the names of the segments and the arrows between their addresses. A number is read one byte behind
what was found, without a look at whether the text has such a byte.

## Main definitions

* `lilu_strtou`: the number that a string begins with
* `MapEntry`: a requested path and the addresses of its image
* `mapAddresses`: the loop over the text
* `Complete`: the names and arrows behind a path are followed by a byte each

## Main results

* `isSome_readBlock_iff`: when the numbers behind a path are read inside the text
* `mapAddresses_inside_iff`: when the loop stays inside the text
-/

namespace Lilu.UserPatcher

open Lilu.Kext (CString)
open Lilu.Util (strstr)

/-! ## Numbers -/

/-- White space, as `isspace` has it. -/
def isSpace (c : UInt8) : Bool :=
  c == 32 || (9 ≤ c && c ≤ 13)

def hexDigit? (c : UInt8) : Option ℕ :=
  if 48 ≤ c ∧ c ≤ 57 then some (c.toNat - 48)
  else if 65 ≤ c ∧ c ≤ 70 then some (c.toNat - 55)
  else if 97 ≤ c ∧ c ≤ 102 then some (c.toNat - 87)
  else none

/-- The value of the digits that a string begins with, behind digits of the value `acc`. -/
def digitsValue : ℕ → CString → ℕ
  | acc, [] => acc
  | acc, c :: s =>
    match hexDigit? c with
    | some d => digitsValue (16 * acc + d) s
    | none => acc

/-- `strtoul` to the base 16: white space, a sign, `0x`, and digits. Too large a number gives the
largest one. -/
def lilu_strtou (s : CString) : VmAddress :=
  let s := s.dropWhile isSpace
  let (negative, s) := match s with
    | 45 :: s => (true, s)
    | 43 :: s => (false, s)
    | s => (false, s)
  let s := match s with
    | 48 :: 120 :: s => s
    | 48 :: 88 :: s => s
    | s => s
  let value := digitsValue 0 s
  if 2 ^ 64 ≤ value then BitVec.allOnes 64
  else if negative then -BitVec.ofNat 64 value
  else BitVec.ofNat 64 value

/-! ## The loop -/

/-- `__TEXT` -/
def nameTEXT : CString := [95, 95, 84, 69, 88, 84]

/-- `__DATA` -/
def nameDATA : CString := [95, 95, 68, 65, 84, 65]

/-- `->` -/
def arrowText : CString := [45, 62]

/-- A requested path with its length, and the addresses of its image. -/
structure MapEntry where
  filename : Option CString
  length : ℕ
  startTEXT : VmAddress := 0
  endTEXT : VmAddress := 0
  startDATA : VmAddress := 0
  endDATA : VmAddress := 0
  sized : ∀ f, filename = some f → length = f.length
  deriving DecidableEq

/-- `strncmp` of the string and the entry's path gives zero. -/
def MapEntry.names (e : MapEntry) (s : CString) : Bool :=
  match e.filename with
  | none => false
  | some f => s.take e.length == f.take e.length

/-- The string at an offset; `none` behind the terminating zero. -/
def advance (s : CString) (n : ℕ) : Option CString :=
  if n ≤ s.length then some (s.drop n) else none

/-- What is read behind a requested path: how far the loop goes on from there, the entry, and
whether it counts as found. `none` if a number is read behind the terminating zero. -/
def readBlock (s : CString) (e : MapEntry) : Option (ℕ × MapEntry × Bool) :=
  match strstr s nameTEXT 6 with
  | none => some (0, e, false)
  | some text =>
    let i := 6
    match strstr (s.drop i) arrowText 2 with
    | none => some (i, e, false)
    | some arrow =>
      (advance s (text + 6 + 1)).bind fun textAt =>
      (advance s (i + arrow + 2 + 1)).bind fun arrowAt =>
        let e := { e with startTEXT := lilu_strtou textAt, endTEXT := lilu_strtou arrowAt }
        match strstr (s.drop i) nameDATA 6 with
        | none => some (i, e, true)
        | some data =>
          let j := i + 6
          match strstr (s.drop j) arrowText 2 with
          | none => some (j, e, true)
          | some arrow =>
            (advance s (i + data + 6 + 1)).bind fun dataAt =>
            (advance s (j + arrow + 2 + 1)).bind fun arrowAt =>
              some (j, { e with
                startDATA := lilu_strtou dataAt, endDATA := lilu_strtou arrowAt }, true)

/-- The state of the loop: the string at `ptr`, the entries, and how many were found. -/
structure MapState where
  ptr : CString
  entries : List MapEntry
  nfound : ℕ

/-- A turn of the loop. It is left with `none` if it reads behind the terminating zero. -/
def mapTurn (s : MapState) : Turn MapState (Option (List MapEntry × ℕ)) :=
  match s.ptr with
  | [] => .leave (some (s.entries, s.nfound))
  | c :: rest =>
    if c = 10 then
      match s.entries.findIdx? (·.names rest) with
      | none => .again { s with ptr := rest }
      | some k =>
        match s.entries[k]? with
        | none => .again { s with ptr := rest }
        | some e =>
          match (advance rest e.length).bind (readBlock · e) with
          | none => .leave none
          | some (i, e', found) =>
            match advance rest (e.length + i) with
            | none => .leave none
            | some ptr => .again
                ⟨ptr, s.entries.set k e', if found then s.nfound + 1 else s.nfound⟩
    else .again { s with ptr := rest }

/-- `mapAddresses`: the entries, and how many were found, if the loop ends; without them if it reads
behind the text's terminating zero. -/
def mapAddresses (mapBuf : Option CString) (mapEntries : List MapEntry) (fuel : ℕ) :
    Option (Option (List MapEntry × ℕ)) :=
  match mapBuf with
  | none => some (some (mapEntries, 0))
  | some text =>
    if mapEntries.length = 0 then some (some (mapEntries, 0))
    else loop mapTurn fuel ⟨text, mapEntries, 0⟩

/-! ## What is read behind a path -/

/-- **Complete text** behind a path: where numbers are read, a byte follows the names and the arrows
that were found. -/
def Complete (s : CString) : Prop :=
  ∀ text arrow, strstr s nameTEXT 6 = some text → strstr (s.drop 6) arrowText 2 = some arrow →
    text + 6 < s.length ∧ 6 + arrow + 2 < s.length ∧
      ∀ data arrow', strstr (s.drop 6) nameDATA 6 = some data →
        strstr (s.drop 12) arrowText 2 = some arrow' →
        6 + data + 6 < s.length ∧ 12 + arrow' + 2 < s.length

variable {s : CString} {e : MapEntry}

theorem isSome_bind_advance {α : Type*} {n : ℕ} {f : CString → Option α} :
    ((advance s n).bind f).isSome ↔ n ≤ s.length ∧ (f (s.drop n)).isSome := by
  rw [advance]
  split_ifs with h <;> simp [h]

/-- **The numbers behind a path** are read inside the text if and only if it is complete. -/
theorem isSome_readBlock_iff : (readBlock s e).isSome ↔ Complete s := by
  unfold readBlock Complete
  cases htext : strstr s nameTEXT 6 with
  | none => simp
  | some text =>
    dsimp only
    cases harrow : strstr (s.drop 6) arrowText 2 with
    | none => simp
    | some arrow =>
      dsimp only
      rw [isSome_bind_advance, isSome_bind_advance]
      cases hdata : strstr (s.drop 6) nameDATA 6 with
      | none => simp
      | some data =>
        dsimp only
        cases harrow' : strstr (s.drop 12) arrowText 2 with
        | none => simp
        | some arrow' =>
          dsimp only
          rw [isSome_bind_advance, isSome_bind_advance]
          simp

/-- What is found ends inside the text. -/
theorem strstr_le {needle : CString} {len k : ℕ} (h : strstr s needle len = some k)
    (hlen : len = needle.length) : k + len ≤ s.length := by
  have hfirst := Util.strstr_attempt (.inr hlen) s
  rw [h] at hfirst
  have hle := hfirst.2.1.length_le
  rw [List.length_drop, ← hlen] at hle
  by_cases hzero : len = 0
  · rw [strstr, if_pos hzero, if_pos (hlen.symm.trans hzero)] at h
    obtain rfl := Option.some.inj h
    omega
  · omega

/-- The loop goes on inside the text, and the entry keeps its path. -/
theorem readBlock_le {i : ℕ} {e' : MapEntry} {found : Bool}
    (h : readBlock s e = some (i, e', found)) :
    i ≤ s.length ∧ e'.filename = e.filename := by
  unfold readBlock at h
  cases htext : strstr s nameTEXT 6 with
  | none =>
    rw [htext] at h
    cases h
    exact ⟨Nat.zero_le _, rfl⟩
  | some text =>
    have htextle := strstr_le htext rfl
    rw [htext] at h
    dsimp only at h
    cases harrow : strstr (s.drop 6) arrowText 2 with
    | none =>
      rw [harrow] at h
      cases h
      exact ⟨by omega, rfl⟩
    | some arrow =>
      rw [harrow] at h
      obtain ⟨textAt, -, h⟩ := Option.bind_eq_some_iff.mp h
      obtain ⟨arrowAt, -, h⟩ := Option.bind_eq_some_iff.mp h
      cases hdata : strstr (s.drop 6) nameDATA 6 with
      | none =>
        rw [hdata] at h
        cases h
        exact ⟨by omega, rfl⟩
      | some data =>
        have hdatale := strstr_le hdata rfl
        rw [List.length_drop] at hdatale
        rw [hdata] at h
        dsimp only at h
        cases harrow' : strstr (s.drop 12) arrowText 2 with
        | none =>
          rw [harrow'] at h
          cases h
          exact ⟨by omega, rfl⟩
        | some arrow' =>
          rw [harrow'] at h
          obtain ⟨dataAt, -, h⟩ := Option.bind_eq_some_iff.mp h
          obtain ⟨arrowAt', -, h⟩ := Option.bind_eq_some_iff.mp h
          cases h
          exact ⟨by omega, rfl⟩

/-! ## The turns -/

/-- A path that is named is as long as the entry says. -/
theorem MapEntry.le_of_names (h : e.names s = true) : e.length ≤ s.length := by
  unfold MapEntry.names at h
  split at h
  · cases h
  next f hf =>
    have hlen := congrArg List.length (beq_iff_eq.mp h)
    rw [e.sized f hf, List.take_length, List.length_take] at hlen
    rw [e.sized f hf]
    omega

/-- The loop is at a line with a requested path, behind which the text goes on with `behind`. -/
structure MapState.Requests (s : MapState) (k : ℕ) (e : MapEntry) (rest behind : CString) :
    Prop where
  ptr : s.ptr = 10 :: rest
  found : s.entries.findIdx? (·.names rest) = some k
  entry : s.entries[k]? = some e
  behind : behind = rest.drop e.length

/-- At any other byte the loop goes on by one. -/
theorem mapTurn_unnamed {s : MapState} {c : UInt8} {rest : CString} (hptr : s.ptr = c :: rest)
    (h : c = 10 → s.entries.findIdx? (·.names rest) = none) :
    mapTurn s = .again { s with ptr := rest } := by
  rw [mapTurn, hptr]
  dsimp only
  by_cases hline : c = 10
  · rw [if_pos hline, h hline]
  · exact if_neg hline

/-- At a requested path the turn is decided by what is read behind it. -/
theorem MapState.Requests.mapTurn_eq {s : MapState} {k : ℕ} {e : MapEntry} {rest behind : CString}
    (h : s.Requests k e rest behind) :
    mapTurn s = match readBlock behind e with
      | none => .leave none
      | some (i, e', found) => .again
          ⟨behind.drop i, s.entries.set k e', if found then s.nfound + 1 else s.nfound⟩ := by
  obtain ⟨hptr, hfind, hget, rfl⟩ := h
  have hle : e.length ≤ rest.length := by
    obtain ⟨hk, hnames, -⟩ := List.findIdx?_eq_some_iff_getElem.mp hfind
    obtain rfl := Option.some.inj ((List.getElem?_eq_getElem hk).symm.trans hget)
    exact MapEntry.le_of_names hnames
  have hin : advance rest e.length = some (rest.drop e.length) := if_pos hle
  rw [mapTurn, hptr]
  dsimp only
  rw [if_pos rfl, hfind]
  dsimp only
  rw [hget]
  dsimp only
  rw [hin, Option.bind_some]
  cases hread : readBlock (rest.drop e.length) e with
  | none => rfl
  | some r =>
    obtain ⟨i, e', found⟩ := r
    have hi := (readBlock_le hread).1
    rw [List.length_drop] at hi
    have hnext : advance rest (e.length + i) = some ((rest.drop e.length).drop i) := by
      rw [advance, if_pos (by omega), List.drop_drop]
    dsimp only
    rw [hnext]

/-- **A turn** passes over a byte, or reads what is behind a requested path. -/
theorem mapTurn_cons {s : MapState} {c : UInt8} {rest : CString} (hptr : s.ptr = c :: rest) :
    (mapTurn s = .again { s with ptr := rest } ∧
      (c = 10 → s.entries.findIdx? (·.names rest) = none)) ∨
    ∃ k e behind, s.Requests k e rest behind ∧
      (readBlock behind e = none ∧ mapTurn s = .leave none ∨
        ∃ i e' found, readBlock behind e = some (i, e', found) ∧ mapTurn s = .again
          ⟨behind.drop i, s.entries.set k e', if found then s.nfound + 1 else s.nfound⟩) := by
  by_cases hnone : c = 10 → s.entries.findIdx? (·.names rest) = none
  · exact .inl ⟨mapTurn_unnamed hptr hnone, hnone⟩
  obtain ⟨rfl, hsome⟩ := Classical.not_imp.mp hnone
  obtain ⟨k, hfind⟩ := Option.ne_none_iff_exists'.mp hsome
  obtain ⟨hk, -⟩ := List.findIdx?_eq_some_iff_getElem.mp hfind
  have hat : s.Requests k s.entries[k] rest (rest.drop s.entries[k].length) :=
    ⟨hptr, hfind, List.getElem?_eq_getElem hk, rfl⟩
  have hturn := hat.mapTurn_eq
  refine .inr ⟨k, s.entries[k], _, hat, ?_⟩
  cases hread : readBlock (rest.drop s.entries[k].length) s.entries[k] with
  | none =>
    rw [hread] at hturn
    exact .inl ⟨rfl, hturn⟩
  | some r =>
    obtain ⟨i, e', found⟩ := r
    rw [hread] at hturn
    exact .inr ⟨i, e', found, rfl, hturn⟩

theorem mapTurn_nil {s : MapState} (hptr : s.ptr = []) :
    mapTurn s = .leave (some (s.entries, s.nfound)) := by
  rw [mapTurn, hptr]

/-- A turn that goes on leaves less of the text. -/
theorem length_of_again {s s' : MapState} (h : mapTurn s = .again s') :
    s'.ptr.length < s.ptr.length := by
  cases hptr : s.ptr with
  | nil =>
    rw [mapTurn_nil hptr] at h
    cases h
  | cons c rest =>
    rcases mapTurn_cons hptr with ⟨hturn, -⟩ | ⟨k, e, behind, hrequests, ⟨-, hturn⟩ |
      ⟨i, e', found, -, hturn⟩⟩ <;> rw [hturn] at h <;> cases h
    · exact Nat.lt_succ_self _
    · have hptr' := hrequests.ptr
      rw [hptr] at hptr'
      rw [hrequests.behind, List.length_drop, List.length_drop, List.length_cons]
      omega

/-- The loop comes to a requested path, behind which the text goes on with `behind`. -/
def Comes (text : CString) (mapEntries : List MapEntry) (behind : CString) : Prop :=
  ∃ s k e rest, ComesTo mapTurn ⟨text, mapEntries, 0⟩ s ∧ s.Requests k e rest behind

/-- Without entries no path is requested. -/
theorem not_comes_nil {text behind : CString} : ¬ Comes text [] behind := by
  rintro ⟨s, k, e, rest, hcomes, hrequests⟩
  have hnone : s.entries = [] := by
    refine hcomes.invariant (fun s => s.entries = []) (fun s s' hs hturn => ?_) rfl
    cases hptr : s.ptr with
    | nil =>
      rw [mapTurn_nil hptr] at hturn
      cases hturn
    | cons c rest =>
      rcases mapTurn_cons hptr with ⟨hnext, -⟩ | ⟨k, e, behind, hrequests, -⟩
      · rw [hnext] at hturn
        cases hturn
        exact hs
      · have hget := hrequests.entry
        rw [hs] at hget
        cases hget
  have hget := hrequests.entry
  rw [hnone] at hget
  cases hget

/-- The loop ends, and inside the text if the text is complete where it comes to. -/
theorem loop_mapTurn_iff (text : CString) (mapEntries : List MapEntry) :
    (∃ fuel r, loop mapTurn fuel ⟨text, mapEntries, 0⟩ = some (some r)) ↔
      ∀ behind, Comes text mapEntries behind → Complete behind := by
  constructor
  · rintro ⟨fuel, r, hrun⟩ behind ⟨s, k, e, rest, hcomes, hrequests⟩
    obtain ⟨n, hn⟩ := hcomes.loop_iff.mp ⟨fuel, hrun⟩
    rw [← isSome_readBlock_iff (e := e), Option.isSome_iff_ne_none]
    intro hnone
    -- otherwise the loop is left here, without a result
    have hturn : mapTurn s = .leave none := by
      rcases mapTurn_cons hrequests.ptr with ⟨-, hnot⟩ | ⟨k', e', behind', hrequests', hread⟩
      · rw [hrequests.found] at hnot
        cases hnot rfl
      · obtain rfl : k = k' := Option.some.inj (hrequests.found.symm.trans hrequests'.found)
        obtain rfl : e = e' := Option.some.inj (hrequests.entry.symm.trans hrequests'.entry)
        obtain rfl : behind = behind' := hrequests.behind.trans hrequests'.behind.symm
        rcases hread with ⟨-, hturn⟩ | ⟨i, e', found, hsome, -⟩
        · exact hturn
        · rw [hnone] at hsome
          cases hsome
    cases loop_unique hn (loop_succ_leave hturn 0)
  · intro h
    have hleave : ∀ s b, ComesTo mapTurn ⟨text, mapEntries, 0⟩ s → mapTurn s = .leave b →
        ∃ r, b = some r := by
      intro s b hs hturn
      cases hptr : s.ptr with
      | nil =>
        rw [mapTurn_nil hptr] at hturn
        cases hturn
        exact ⟨_, rfl⟩
      | cons c rest =>
        rcases mapTurn_cons hptr with ⟨hnext, -⟩ | ⟨k, e, behind, hrequests, ⟨hnone, -⟩ |
          ⟨i, e', found, -, hnext⟩⟩
        · rw [hnext] at hturn
          cases hturn
        · have hcomplete := isSome_readBlock_iff (e := e).mpr
            (h behind ⟨s, k, e, rest, hs, hrequests⟩)
          rw [hnone] at hcomplete
          cases hcomplete
        · rw [hnext] at hturn
          cases hturn
    obtain ⟨b, hb, r, rfl⟩ := loop_spec mapTurn _ _ (fun s => s.ptr.length)
      (fun s s' hs hturn => ⟨hs.again hturn, length_of_again hturn⟩) hleave .start
      (Nat.lt_succ_self text.length)
    exact ⟨_, r, hb⟩

/-- **The loop ends**, whatever the text. -/
theorem loop_mapTurn_ends (text : CString) (mapEntries : List MapEntry) :
    ∃ fuel r, loop mapTurn fuel ⟨text, mapEntries, 0⟩ = some r := by
  obtain ⟨r, hr, -⟩ := loop_spec mapTurn (fun _ => True) (fun _ => True) (fun s => s.ptr.length)
    (fun s s' _ hturn => ⟨trivial, length_of_again hturn⟩) (fun _ _ _ _ => trivial)
    (s := ⟨text, mapEntries, 0⟩) trivial (Nat.lt_succ_self text.length)
  exact ⟨_, r, hr⟩

/-- **Inside the text**: the loop ends, and it reads nothing behind the text if and only if the text
is complete behind each requested path that the loop comes to. -/
theorem mapAddresses_inside_iff (mapBuf : Option CString) (mapEntries : List MapEntry) :
    (∃ fuel r, mapAddresses mapBuf mapEntries fuel = some r) ∧
    ((∃ fuel r, mapAddresses mapBuf mapEntries fuel = some (some r)) ↔
      ∀ text behind, mapBuf = some text → Comes text mapEntries behind → Complete behind) := by
  cases mapBuf with
  | none => exact ⟨⟨0, _, rfl⟩, iff_of_true ⟨0, _, rfl⟩ nofun⟩
  | some text =>
    have hall : (∀ text' behind, some text = some text' → Comes text' mapEntries behind →
        Complete behind) ↔ ∀ behind, Comes text mapEntries behind → Complete behind :=
      ⟨fun h behind => h text behind rfl, fun h text' behind heq => Option.some.inj heq ▸ h behind⟩
    rw [hall]
    cases mapEntries with
    | nil => exact ⟨⟨0, _, rfl⟩, iff_of_true ⟨0, _, rfl⟩ fun _ h => absurd h not_comes_nil⟩
    | cons e l => exact ⟨loop_mapTurn_ends text (e :: l), loop_mapTurn_iff text (e :: l)⟩

/-- The path `/a` is requested. -/
def entryA : MapEntry where
  filename := some [47, 97]
  length := 2
  sized := fun f hf => by rw [← Option.some.inj hf]; rfl

/-- **The defect**: in `\n/a__TEXT->` a number is read one byte behind the terminating zero. -/
theorem not_mapAddresses_inside :
    ¬ ∃ fuel r, mapAddresses (some ([10, 47, 97] ++ nameTEXT ++ arrowText)) [entryA] fuel =
      some (some r) := by
  rintro ⟨fuel, r, h⟩
  have hend : mapAddresses (some ([10, 47, 97] ++ nameTEXT ++ arrowText)) [entryA] 1 =
      some none := by
    decide
  cases loop_unique h hend

end Lilu.UserPatcher
