import Mathlib.Tactic
import Lilu.Patcher.Layout

/-!
# What the trampoline returns to

The first route of a function moves instructions into a trampoline, which jumps back behind them.
Later routes write jumps of other sizes over the first one. None of them is longer than the bytes
that were moved: a slotted jump is redirected by slotted jumps only, and a relative one by none.

## Main definitions

* `Carries`: a jump of the patcher stands at a function, no longer than the moved bytes
* `prologue`: how many bytes the first route of a run has moved, or overwritten

## Main results

* `Carries.route`, `carries_of_first`: the jump of a route fits into the moved bytes
* `spares_prologue`: no route changes a byte behind them
-/

namespace Lilu.Patcher

variable {env : Env} {s s₁ s' : State} {r : RouteArgs} {f dest trampoline : Addr} {n off : ℕ}
  {m m' : Mem} {j jump : Jump}

/-! ## Frames -/

/-- The bytes of the function from the offset `off` on are the same. -/
def Spares (f : Addr) (n off : ℕ) (m m' : Mem) : Prop :=
  ∀ x ∈ block f n, off ≤ (x - f).toNat → m' x = m x

theorem spares_of_eqOn (h : Set.EqOn m' m (block f n)) : Spares f n off m m' :=
  fun _ hx _ => h hx

/-- A route that fails leaves everything but the trampolines. -/
theorem failed_eqOn (h : Returns (routeFunctionInternal env r) s .failed s') :
    Set.EqOn s'.mem s.mem (trampolineArea env)ᶜ := by
  cases routeWith_cases h with
  | outOfRange _ _ hrefused => exact fun x _ => congrFun hrefused.mem_eq x
  | noOriginal _ hfinds => exact hfinds.eqOn_area
  | refused _ hfinds _ hrefused =>
    rw [hrefused.mem_eq, withOrg_mem]
    exact hfinds.eqOn_area

/-! ## Jumps of the patcher -/

/-- The function starts with no jump. -/
def Unrouted (f : Addr) (m : Mem) : Prop :=
  (readChain m f).2 = none

/-- The jump at the function leads somewhere, and is no longer than `off` bytes. -/
structure Carries (env : Env) (f : Addr) (n off : ℕ) (j : Jump) (dest : Addr) (m : Mem) : Prop
    extends Placed env f n j dest m where
  target_ne : dest ≠ 0
  size_le : j.size ≤ off

theorem Carries.congr (hl : Layout env f n s) (h : Carries env f n off j dest m)
    (heq : Set.EqOn m' m (trampolineArea env)ᶜ) : Carries env f n off j dest m' :=
  { h with toPlaced := h.toPlaced.congr (heq.mono (h.cells_subset hl)) }

/-- Writing such a jump spares what is behind it. -/
theorem Carries.spares (h : Carries env f n off j dest m') :
    Spares f n off m (j.write f dest m) := by
  intro x hx hoff
  apply Jump.write_eqOn
  intro hmem
  have hlt : (x - f).toNat < j.size := h.cells_inter hmem hx
  exact absurd (hlt.trans_le h.size_le) (not_lt.mpr hoff)

/-! ## Routes of a routed function -/

/-- A jump is redirected by one that is no longer. -/
theorem select_size_le {absolute : Bool} {slot : Addr} (hshort : j.type ≠ .Short)
    (hmedium : slot ≠ 0 ↔ j.type = .Medium) : (Jump.select absolute slot).size ≤ j.size := by
  cases j with
  | short => exact absurd rfl hshort
  | medium a =>
    rw [Jump.select, if_pos (hmedium.mpr rfl)]
    exact le_rfl
  | long => exact Jump.size_le _

/-- **Later routes**: what a route writes over a jump is no longer than that jump. -/
theorem Carries.route (hl : Layout env r.entry n s)
    (hc : Carries env r.entry n off j dest s.mem) (hdest : r.dest ≠ 0)
    (h : Returns (routeFunctionInternal env r) s (.routed trampoline jump) s') :
    Carries env r.entry n off jump r.dest s'.mem ∧ Spares r.entry n off s.mem s'.mem := by
  obtain ⟨original, s₁, hfinds, hjump, hreaches, hmem⟩ := routed_write hl.slotsFit h
  have hchain : (readChain s.mem r.entry).1 ≠ 0 := by
    rw [hc.reads]
    exact hc.target_ne
  -- A function with a jump is redirected, and no trampoline is built.
  have hsame : s₁.mem = s.mem := by
    obtain hsame | ⟨hwraps, -⟩ := hfinds.eqOn
    · exact hsame
    · exact absurd hwraps.2 hchain
  have hsize : jump.size ≤ off := by
    refine le_trans ?_ hc.size_le
    cases hfinds with
    | redirect _ hprev _ hmedium =>
      rw [hc.reads] at hprev hmedium
      rw [hjump]
      apply select_size_le
      · exact fun hshort => hprev (congrArg some hshort)
      · exact hmedium.trans (by simp)
    | plain hzero => exact absurd hzero hchain
    | wrap hzero => exact absurd hzero hchain
  have hcarries : Carries env r.entry n off jump r.dest (jump.write r.entry r.dest s.mem) :=
    ⟨placed_write hl hfinds hjump hreaches, hdest, hsize⟩
  rw [hmem, hsame]
  exact ⟨hcarries, hcarries.spares⟩

/-- How many bytes the first route of a function has moved, or overwritten. -/
def firstOff (env : Env) (s : State) (r : RouteArgs) (jump : Jump) : ℕ :=
  if Wraps s r then moved env s r jump else jump.size

/-- **The first route**: its jump is no longer than what it has moved. -/
theorem carries_of_first (hl : Layout env r.entry n s) (hdest : r.dest ≠ 0)
    (h : Returns (routeFunctionInternal env r) s (.routed trampoline jump) s') :
    Carries env r.entry n (firstOff env s r jump) jump r.dest s'.mem ∧
      Spares r.entry n (firstOff env s r jump) s.mem s'.mem := by
  obtain ⟨original, s₁, hfinds, hjump, hreaches, hmem⟩ := routed_write hl.slotsFit h
  have hsize : jump.size ≤ firstOff env s r jump := by
    rw [firstOff]
    split_ifs with hwraps
    · have hmovable := hfinds.movable hwraps
      rw [← hjump] at hmovable
      exact (quickInstructionSize_bounds hmovable.1).1
    · exact le_rfl
  have hcarries : Carries env r.entry n (firstOff env s r jump) jump r.dest
      (jump.write r.entry r.dest s₁.mem) :=
    ⟨placed_write hl hfinds hjump hreaches, hdest, hsize⟩
  rw [hmem]
  refine ⟨hcarries, fun x hx hoff => ?_⟩
  rw [hcarries.spares x hx hoff]
  exact hfinds.eqOn_area (Set.disjoint_left.mp hl.apart hx)

/-! ## The eraser -/

/-- No jump appears where code is overwritten. -/
theorem Unrouted.erase {u : Unit} (hu : Unrouted f s.mem)
    (h : Returns (eraseCoverageInstPrefix env f 5 longJump) s u s') : Unrouted f s'.mem := by
  have hmem : ∀ x, s'.mem x = s.mem x ∨ s'.mem x = nop :=
    fun x => (eraseCoverageInstPrefix_mem (by decide) h x).imp_right And.right
  -- The eraser writes `nop`s only, and neither jump has one among its first bytes.
  have hkeeps : ∀ x b, b ≠ nop → s'.mem x = b → s.mem x = b := by
    intro x b hb hx
    obtain hsame | hnop := hmem x
    · exact hsame ▸ hx
    · exact absurd (hx.symm.trans hnop) hb
  rw [Unrouted, readChain_snd_eq_none_iff] at hu ⊢
  constructor
  · rintro ⟨h₀, h₁⟩
    exact hu.1 ⟨hkeeps _ _ (by decide) h₀, hkeeps _ _ (by decide) h₁⟩
  · exact fun h₀ => hu.2 (hkeeps _ _ (by decide) h₀)

/-- A long jump stays one, to somewhere. -/
theorem long_erase {u : Unit} (hj : Jump.long.Stands f dest s.mem) (hdest : dest ≠ 0)
    (h : Returns (eraseCoverageInstPrefix env f 5 longJump) s u s') :
    ∃ dest', dest' ≠ 0 ∧ Jump.long.Stands f dest' s'.mem := by
  obtain ⟨h₀, h₁, -⟩ := hj.indirect (by simp)
  obtain ⟨hinst, htarget⟩ := Jump.long_stands_iff.mp hj
  have hcode := eqOn_of_indirect h₀ h₁ h
  refine ⟨read 64 s'.mem (f + 6), fun hzero => hdest ?_, Jump.long_stands_iff.mpr ⟨?_, ?_⟩⟩
  · -- a target of zeros has no `nop` in it, so that nothing was written there
    have hload : load s'.mem (f + 6) 8 = bytes (0 : Addr) := by
      rw [← hzero]
      exact (@bytes_read 64 s'.mem (f + 6) 64 (by decide)).symm
    have hsame : load s.mem (f + 6) 8 = load s'.mem (f + 6) 8 := by
      refine List.map_congr_left fun k hk => ?_
      have hbyte := congrArg (·[k]?) hload
      have hzeros : bytes (0 : Addr) = List.replicate 8 0 := by decide
      rw [List.mem_range] at hk
      simp only [getElem?_load hk, hzeros, List.getElem?_replicate, if_pos hk,
        Option.some.injEq] at hbyte
      obtain hsame | ⟨-, hnop⟩ := eraseCoverageInstPrefix_mem (by decide) h
        (f + 6 + BitVec.ofNat 64 k)
      · exact hsame.symm
      · exact absurd (hnop.symm.trans hbyte) (by decide)
    have hbytes : bytes dest = bytes (0 : Addr) := htarget.symm.trans (hsame.trans hload)
    have hzeros : load s.mem (f + 6) (64 / 8) = bytes (0 : Addr) := htarget.trans hbytes
    exact hj.target.symm.trans (read_of_load (by decide) hzeros)
  · exact (load_congr hcode).trans hinst
  · exact (@bytes_read 64 s'.mem (f + 6) 64 (by decide)).symm

/-- **The eraser** leaves a jump that is no longer than before. -/
theorem Carries.erase {u : Unit} (hl : Layout env f n s) (hc : Carries env f n off j dest s.mem)
    (h : Returns (eraseCoverageInstPrefix env f 5 longJump) s u s') :
    ∃ dest', Carries env f n off j dest' s'.mem := by
  -- A long jump has its target among the bytes that the eraser can reach; the others stay whole.
  by_cases hlong : j = .long
  · subst hlong
    obtain ⟨dest', hne, hj⟩ := long_erase hc.stands hc.target_ne h
    exact ⟨dest', ⟨hj, trivial, by simp⟩, hne, hc.size_le⟩
  · have hslot : ∀ a, j = .medium a → Disjoint (block a 8) (block f 20) :=
      fun a ha => (hc.slot a ha).1.mono_right (block_mono hl.room)
    refine ⟨dest, { hc with stands := stands_of_short hc.stands hlong hslot h }⟩

/-! ## Runs -/

/-- What a route has moved, or overwritten, unless it has failed. -/
def routeOff (env : Env) (s : State) (r : RouteArgs) : Route → Option ℕ
  | .failed => none
  | .routed _ jump => some (firstOff env s r jump)

/-- What the first route of a run that did not fail has moved, or overwritten. -/
def prologue (env : Env) (steps : List Step) : Option ℕ :=
  steps.findSome? fun x => routeOff env x.before x.call.args x.route

theorem prologue_concat (steps : List Step) (x : Step) : prologue env (steps ++ [x]) =
    (prologue env steps).or (routeOff env x.before x.call.args x.route) := by
  rw [prologue, List.findSome?_append]
  refine congrArg _ ?_
  cases hoff : routeOff env x.before x.call.args x.route with
  | none => simp [hoff]
  | some off => simp [hoff]

/-- The function has no jump yet, or one of the patcher. -/
def Settled (env : Env) (f : Addr) (n : ℕ) (m : Mem) : Option ℕ → Prop
  | none => Unrouted f m
  | some off => ∃ j dest, Carries env f n off j dest m

variable {off? : Option ℕ} {steps : List Step} {s₀ : State}

theorem Settled.prepare {c : Call} (hc : c.args.entry = f) (hl : Layout env f n s)
    (h : Settled env f n s.mem off?) (hprepare : Returns (c.prepare env) s () s') :
    Settled env f n s'.mem off? := by
  rw [Call.prepare, hc] at hprepare
  split_ifs at hprepare with herases
  · cases off? with
    | none => exact h.erase hprepare
    | some off =>
      obtain ⟨j, dest, hcarries⟩ := h
      exact ⟨j, hcarries.erase hl hprepare⟩
  · obtain ⟨-, rfl⟩ := returns_pure.mp hprepare
    exact h

theorem Settled.congr (hl : Layout env f n s) (h : Settled env f n m off?)
    (heq : Set.EqOn m' m (trampolineArea env)ᶜ) : Settled env f n m' off? := by
  cases off? with
  | none =>
    -- The kind of a jump is read from its first two bytes.
    have hat : ∀ {x}, x ∈ block f 20 → m' x = m x := fun hx =>
      heq (Set.disjoint_left.mp hl.apart (block_mono hl.room hx))
    have hentry := hat (self_mem_block (by decide))
    have hnext := hat (@add_mem_block 64 f 1 20 (by decide))
    rw [Settled, Unrouted, readChain_snd_eq_none_iff] at h ⊢
    rw [hentry]
    exact ⟨fun hno => h.1 ⟨hno.1, hnext ▸ hno.2⟩, h.2⟩
  | some off =>
    obtain ⟨j, dest, hcarries⟩ := h
    exact ⟨j, dest, hcarries.congr hl heq⟩

/-- **A step of a run**: a route leaves the function with a jump that is no longer than what the
first one has moved, and changes nothing behind that. -/
theorem Settled.route (hl : Layout env r.entry n s) (h : Settled env r.entry n s.mem off?)
    (hdest : r.dest ≠ 0) {route : Route}
    (hroute : Returns (routeFunctionInternal env r) s route s') :
    Settled env r.entry n s'.mem (off?.or (routeOff env s r route)) ∧
      ∀ off, (∀ o ∈ off?.or (routeOff env s r route), o ≤ off) →
        Spares r.entry n off s.mem s'.mem := by
  cases route with
  | failed =>
    have heq := failed_eqOn hroute
    have hoff : off?.or (routeOff env s r .failed) = off? := Option.or_none
    rw [hoff]
    refine ⟨h.congr hl heq, fun off _ => spares_of_eqOn fun x hx => ?_⟩
    exact heq (Set.disjoint_left.mp hl.apart hx)
  | routed trampoline jump =>
    -- The first route of the run fixes how much is spared; the later ones spare no less.
    have hmono : ∀ {k off : ℕ}, k ≤ off → Spares r.entry n k s.mem s'.mem →
        Spares r.entry n off s.mem s'.mem := fun hk hspares x hx hx' => hspares x hx (hk.trans hx')
    cases off? with
    | none =>
      obtain ⟨hcarries, hspares⟩ := carries_of_first hl hdest hroute
      exact ⟨⟨jump, r.dest, hcarries⟩, fun off hoff => hmono (hoff _ rfl) hspares⟩
    | some k =>
      obtain ⟨j, dest, hcarries⟩ := h
      obtain ⟨hcarries', hspares⟩ := hcarries.route hl hdest hroute
      exact ⟨⟨jump, r.dest, hcarries'⟩, fun off hoff => hmono (hoff _ rfl) hspares⟩

/-- What stands at the function of a run, and what the routes of the run have spared. -/
theorem Run.settled (hl : Layout env f n s₀) (hu : Unrouted f s₀.mem) (hrun : Run env s₀ steps s)
    (hcalls : ∀ x ∈ steps, x.call.args.entry = f ∧ x.call.args.dest ≠ 0) :
    Settled env f n s.mem (prologue env steps) ∧
      ∀ x ∈ steps, ∀ off, (∀ o ∈ prologue env steps, o ≤ off) →
        Spares f n off x.before.mem x.after.mem := by
  induction hrun with
  | nil => exact ⟨hu, by simp⟩
  | code _ e ih => exact ih hcalls
  | @call steps s s₁ s₂ hrun c route hprepare hroute ih =>
    obtain ⟨hsettled, hspares⟩ := ih fun x hx => hcalls x (List.mem_append_left _ hx)
    obtain ⟨hentry, hdest⟩ := hcalls ⟨c, s₁, route, s₂⟩ (by simp)
    dsimp only at hentry hdest
    have hlayout := hl.keeps hrun.keeps
    have hlayout₁ := hlayout.keeps (prepare_keeps hprepare)
    have hsettled₁ := hsettled.prepare hentry hlayout hprepare
    obtain rfl := hentry
    obtain ⟨hsettled₂, hlast⟩ := hsettled₁.route hlayout₁ hdest hroute
    rw [prologue_concat]
    refine ⟨hsettled₂, fun x hx off hoff => ?_⟩
    obtain hx | hx := List.mem_append.mp hx
    · refine hspares x hx off fun o ho => hoff o ?_
      rw [Option.mem_def.mp ho]
      rfl
    · obtain rfl := List.mem_singleton.mp hx
      exact hlast off hoff

/-- **The prologue is safe**: in every run of routes of a function that did not start with a jump,
with jumps of any type, with or without wrappers and slots, no route changes a byte of the function
behind those that the first route has moved, or overwritten. -/
theorem spares_prologue (hl : Layout env f n s₀) (hu : Unrouted f s₀.mem)
    (hrun : Run env s₀ steps s)
    (hcalls : ∀ x ∈ steps, x.call.args.entry = f ∧ x.call.args.dest ≠ 0) :
    ∀ x ∈ steps, Spares f n ((prologue env steps).getD 0) x.before.mem x.after.mem := by
  intro x hx
  apply (hrun.settled hl hu hcalls).2 x hx
  intro o ho
  rw [Option.mem_def.mp ho]
  exact le_rfl

theorem spares_prologue_far : ∃ steps s, Run sampleEnv nops steps s ∧ steps.length = 2 ∧
    prologue sampleEnv steps = some 6 ∧
    ∀ x ∈ steps, Spares 0x1000 20 ((prologue sampleEnv steps).getD 0) x.before.mem x.after.mem := by
  have hfirst : Run sampleEnv nops [_] _ :=
    Run.nil.call ⟨farWrapper, true⟩ (.routed _ (.medium 0x2000)) rfl rfl
  have hrun : Run sampleEnv nops [_, _] _ :=
    hfirst.call ⟨farWrapper, false⟩ (.routed _ (.medium 0x2008)) rfl rfl
  refine ⟨_, _, hrun, rfl, rfl, ?_⟩
  exact spares_prologue layout_nops rfl hrun (by simp [farWrapper])

end Lilu.Patcher
