import Lilu.Kext.Notification

/-!
# Which handlers go

A handler that is called goes, unless it is reloadable. Nothing else takes a handler away: the
callback may register further ones while the handlers are gone through, but these come behind all
others, so that the place of the one that is called stays the same.

## Main definitions

* `KextHandler.bare`: what a call does not change of a handler
* `consumed`: the handlers of some calls that go
* `Listener.Consumes`: what a part of a run does to the handlers

## Main results

* `Listener.invoked_processKext`: a kext is handed to one handler at most
* `Listener.Consumes.trans`: one part of a run after the other
* `Listener.consumes_run`: what any part of any run does
-/

namespace Lilu.Kext

/-- What a call does not change of a handler. -/
def KextHandler.bare (h : KextHandler) : KextHandler :=
  { h with address := 0, size := 0 }

/-- The handlers that were called and are not reloadable. -/
def consumed (log : List Invocation) : List ℕ :=
  (log.filter fun inv => !inv.handler.reloadable).map (·.handler.serial)

theorem consumed_append (log log' : List Invocation) :
    consumed (log ++ log') = consumed log ++ consumed log' := by
  rw [consumed, List.filter_append, List.map_append]
  rfl

theorem mem_consumed {log : List Invocation} {n : ℕ} : n ∈ consumed log ↔
    ∃ inv ∈ log, inv.handler.reloadable = false ∧ inv.handler.serial = n := by
  simp [consumed, and_assoc]

/-- Handlers that were not called, or are reloadable, stay. -/
theorem filter_eq_of_not_consumed {log : List Invocation} {l : List KextHandler}
    (h : ∀ x ∈ l, x.serial ∉ consumed log) :
    ((l.map (·.bare)).filter fun x => x.serial ∉ consumed log) = l.map (·.bare) := by
  rw [List.filter_eq_self]
  intro x hx
  obtain ⟨y, hy, rfl⟩ := List.mem_map.mp hx
  exact decide_eq_true (h y hy)

namespace Listener

variable {S : System} {s t u : Listener}

/-- **A kext is handed to one handler at most**, one that is registered. -/
theorem invoked_processKext (s : Listener) (kmod : Kmod) (loaded : Bool) :
    (s.processKext S kmod loaded).invoked = s.invoked ∨ ∃ h ∈ s.khandlers,
      (s.processKext S kmod loaded).invoked = s.invoked ++ [Invocation.mk (h.called kmod) kmod] := by
  rcases processKext_cases (S := S) s kmod loaded with ⟨-, heq⟩ | ⟨pre, h, post, -, -, hinv⟩
  · rw [heq]
    exact .inl rfl
  · refine .inr ⟨h, ?_, hinv.invoked⟩
    rw [hinv.handlers]
    exact List.mem_append_right pre List.mem_cons_self

/-- What a part of a run does: `log` are the handlers that it calls, `new` those it registers. The
ones that are not reloadable are called once at most, and then go; all others stay. -/
structure Consumes (s t : Listener) (log : List Invocation) (new : List KextHandler) : Prop where
  invoked : t.invoked = s.invoked ++ log
  called : ∀ inv ∈ log, inv.handler.bare ∈ (s.khandlers ++ new).map (·.bare)
  once : log.Pairwise fun a b => a.handler.serial = b.handler.serial → a.handler.reloadable
  khandlers : t.khandlers.map (·.bare) =
    ((s.khandlers ++ new).map (·.bare)).filter fun h => h.serial ∉ consumed log
  serial : ∀ h ∈ new, s.registered ≤ h.serial ∧ h.serial < t.registered
  registered : s.registered ≤ t.registered

/-- Where the handlers and the calls stay, nothing happens to them. -/
theorem Consumes.of_same (hkhandlers : t.khandlers = s.khandlers)
    (hregistered : t.registered = s.registered) (hinvoked : t.invoked = s.invoked) :
    Consumes s t [] [] where
  invoked := by rw [hinvoked, List.append_nil]
  called := fun _ h => absurd h List.not_mem_nil
  once := List.Pairwise.nil
  khandlers := by
    rw [hkhandlers, List.append_nil, filter_eq_of_not_consumed fun _ _ => List.not_mem_nil]
  serial := fun _ h => absurd h List.not_mem_nil
  registered := hregistered.ge

/-- Registrations call nobody. -/
theorem Extends.consumes {new : List KextHandler} (h : Extends s t new) : Consumes s t [] new where
  invoked := by rw [h.invoked, List.append_nil]
  called := fun _ h => absurd h List.not_mem_nil
  once := List.Pairwise.nil
  khandlers := by
    rw [h.khandlers, filter_eq_of_not_consumed fun _ _ => List.not_mem_nil]
  serial := h.serial
  registered := h.registered

/-- What a call leaves of the handlers. -/
theorem khandlers_of_called {kmod : Kmod} {pre post new : List KextHandler} {h : KextHandler}
    (hothers : ∀ x ∈ pre ++ post ++ new, x.serial ≠ h.serial) :
    (pre ++ (if h.reloadable then [h.called kmod] else []) ++ post ++ new).map (·.bare) =
      ((pre ++ h :: post ++ new).map (·.bare)).filter fun x =>
        x.serial ∉ consumed [Invocation.mk (h.called kmod) kmod] := by
  have hbare : (h.called kmod).bare = h.bare := rfl
  cases hr : h.reloadable with
  | true =>
    have hnone : consumed [Invocation.mk (h.called kmod) kmod] = [] := by
      simp [consumed, KextHandler.called, hr]
    rw [filter_eq_of_not_consumed fun x _ => hnone ▸ List.not_mem_nil]
    simp [hbare]
  | false =>
    have hone : consumed [Invocation.mk (h.called kmod) kmod] = [h.serial] := by
      simp [consumed, KextHandler.called, hr]
    have hstay : ∀ l : List KextHandler, l ⊆ pre ++ post ++ new →
        (l.map (·.bare)).filter (fun x => decide (x.serial ∉ [h.serial])) = l.map (·.bare) := by
      intro l hl
      rw [← hone]
      apply filter_eq_of_not_consumed
      rw [hone]
      exact fun x hx hmem => hothers x (hl hx) (List.mem_singleton.mp hmem)
    have hsplit : pre ++ h :: post ++ new = pre ++ h :: (post ++ new) := by simp
    have hkept : ((pre ++ h :: (post ++ new)).map (·.bare)).filter
        (fun x => decide (x.serial ∉ [h.serial])) =
          pre.map (·.bare) ++ (post ++ new).map (·.bare) := by
      rw [List.map_append, List.filter_append, List.map_cons,
        List.filter_cons_of_neg (by simp [KextHandler.bare]), hstay pre (by simp),
        hstay (post ++ new) (by simp)]
    rw [hone, hsplit, hkept]
    simp

/-- **A call of a handler**: it goes unless it is reloadable, and the others stay. -/
theorem Invokes.consumes {kmod : Kmod} {pre post : List KextHandler} {h : KextHandler}
    (hs : Registered s) (hinv : Invokes s kmod pre h post t) :
    ∃ new, Consumes s t [Invocation.mk (h.called kmod) kmod] new := by
  have hle := hinv.registered_le
  have hinvoked := hinv.invoked
  obtain ⟨hkh, called, registered, new, hnew, rfl, rfl⟩ := hinv
  have hlt : h.serial < s.registered := hs.lt h (hkh ▸ List.mem_append_right pre List.mem_cons_self)
  have hsorted := hs.sorted
  rw [hkh, List.pairwise_append, List.pairwise_cons] at hsorted
  obtain ⟨-, ⟨hpost, -⟩, hpre⟩ := hsorted
  -- the serials are in order, and those of the new handlers are greater than all of them
  have hothers : ∀ x ∈ pre ++ post ++ new, x.serial ≠ h.serial := by
    intro x hx
    rw [List.mem_append, List.mem_append] at hx
    rcases hx with (hx | hx) | hx
    · exact (hpre x hx h List.mem_cons_self).ne
    · exact (hpost x hx).ne'
    · exact (hlt.trans_le (hnew.serial x hx).1).ne'
  refine ⟨new, hinvoked, ?_, List.pairwise_singleton _ _, ?_, hnew.serial, hle⟩
  · intro inv hmem
    obtain rfl := List.mem_singleton.mp hmem
    exact List.mem_map.mpr ⟨h, by simp [hkh], rfl⟩
  · rw [hkh]
    exact khandlers_of_called hothers

/-- The serials of the handlers that are called were given before. -/
theorem Consumes.serial_lt {log : List Invocation} {new : List KextHandler} (hs : Registered s)
    (h : Consumes s t log new) {inv : Invocation} (hinv : inv ∈ log) :
    inv.handler.serial < t.registered := by
  obtain ⟨x, hx, hbare⟩ := List.mem_map.mp (h.called inv hinv)
  have hserial : x.bare.serial = inv.handler.bare.serial := congrArg KextHandler.serial hbare
  rcases List.mem_append.mp hx with hx | hx
  · exact hserial ▸ (hs.lt x hx).trans_le h.registered
  · exact hserial ▸ (h.serial x hx).2

/-- **One part of a run after the other**: what the first calls and is not reloadable is not there
for the second. -/
theorem Consumes.trans {log log' : List Invocation} {new new' : List KextHandler}
    (hs : Registered s) (h : Consumes s t log new) (h' : Consumes t u log' new') :
    Consumes s u (log ++ log') (new ++ new') := by
  have hnew' : ∀ x ∈ new', x.serial ∉ consumed log := by
    intro x hx hmem
    obtain ⟨inv, hinv, -, hserial⟩ := mem_consumed.mp hmem
    have hlt := h.serial_lt hs hinv
    have hge := (h'.serial x hx).1
    omega
  have hthere : (t.khandlers ++ new').map (·.bare) =
      ((s.khandlers ++ new ++ new').map (·.bare)).filter fun x => x.serial ∉ consumed log := by
    have hsplit : (s.khandlers ++ new ++ new').map (·.bare) =
        (s.khandlers ++ new).map (·.bare) ++ new'.map (·.bare) := List.map_append
    rw [List.map_append, h.khandlers, hsplit, List.filter_append, filter_eq_of_not_consumed hnew']
  refine ⟨?_, ?_, ?_, ?_, ?_, h.registered.trans h'.registered⟩
  · rw [h'.invoked, h.invoked, List.append_assoc]
  · intro inv hinv
    rcases List.mem_append.mp hinv with hinv | hinv
    · rw [← List.append_assoc, List.map_append]
      exact List.mem_append_left _ (h.called inv hinv)
    · have hmem := h'.called inv hinv
      rw [hthere] at hmem
      rw [← List.append_assoc]
      exact List.mem_of_mem_filter hmem
  · refine List.pairwise_append.mpr ⟨h.once, h'.once, fun a ha b hb heq => ?_⟩
    -- a handler that is called again did not go
    have hmem := h'.called b hb
    rw [hthere] at hmem
    have hstays : b.handler.serial ∉ consumed log := of_decide_eq_true (List.mem_filter.mp hmem).2
    by_contra hr
    exact hstays (mem_consumed.mpr ⟨a, ha, Bool.eq_false_iff.mpr hr, heq⟩)
  · rw [h'.khandlers, hthere, List.filter_filter, consumed_append, ← List.append_assoc]
    refine List.filter_congr fun x _ => ?_
    simp [not_or, Bool.and_comm]
  · intro x hx
    rcases List.mem_append.mp hx with hx | hx
    · exact ⟨(h.serial x hx).1, (h.serial x hx).2.trans_le h'.registered⟩
    · exact ⟨h.registered.trans (h'.serial x hx).1, (h'.serial x hx).2⟩

/-! ## Runs -/

/-- What was done so far, from a state on. -/
def Consumed (s t : Listener) : Prop :=
  Registered t ∧ ∃ log new, Consumes s t log new

theorem Consumed.processKext (hs : Registered s) (h : Consumed s t) (kmod : Kmod) (loaded : Bool) :
    Consumed s (t.processKext S kmod loaded) := by
  obtain ⟨ht, log, new, h⟩ := h
  refine ⟨ht.processKext kmod loaded, ?_⟩
  rcases processKext_cases (S := S) t kmod loaded with ⟨-, heq⟩ | ⟨pre, g, post, -, -, hinv⟩
  · rw [heq]
    exact ⟨log, new, h⟩
  · obtain ⟨new', h'⟩ := hinv.consumes ht
    exact ⟨_, _, h.trans hs h'⟩

theorem Consumed.same (hs : Registered s) (h : Consumed s t) (hu : Registered u)
    (hkhandlers : u.khandlers = t.khandlers) (hregistered : u.registered = t.registered)
    (hinvoked : u.invoked = t.invoked) : Consumed s u := by
  obtain ⟨-, log, new, h⟩ := h
  exact ⟨hu, _, _, h.trans hs (.of_same hkhandlers hregistered hinvoked)⟩

theorem Consumed.sweep (hs : Registered s) (h : Consumed s t) (kmods : List Kmod) :
    Consumed s (t.sweep S kmods) := by
  have hstep : ∀ (t : Listener) (kmod : Kmod), Consumed s t →
      Consumed s (t.processKext S kmod true) := fun _ kmod h => h.processKext hs kmod true
  have hall : Consumed s (t.processAlreadyLoadedKexts S kmods) := foldl_invariant hstep kmods h
  exact hall.same hs (h.1.sweep kmods) rfl rfl rfl

theorem Consumed.activate (hs : Registered s) (h : Consumed s t) (kmods : Kmods) :
    Consumed s (t.activate S kmods) := by
  have hactivate := h.1.activate (S := S) kmods
  rw [Listener.activate] at hactivate ⊢
  split_ifs at hactivate ⊢
  · exact (h.sweep hs kmods.list).same hs hactivate rfl rfl rfl
  · exact h.same hs hactivate rfl rfl rfl

/-- **Every event** of a run. -/
theorem Consumed.step (hs : Registered s) (h : Consumed s t) (e : Event) :
    Consumed s (t.step S e) := by
  have hstep := h.1.step (S := S) e
  cases e with
  | onOSKextSaveLoadedKextPanicList kmods =>
    simp only [Listener.step, onOSKextSaveLoadedKextPanicList]
    split_ifs
    · exact h
    · exact h
    · exact h.sweep hs kmods.list
    · split
      · exact h
      · exact h.processKext hs _ false
  | beginOSKextUnload => exact h.same hs hstep rfl rfl rfl
  | endOSKextUnload => exact h.same hs hstep rfl rfl rfl
  | waitOnKext handler stored =>
    obtain ⟨-, log, new, h⟩ := h
    obtain ⟨new', hnew'⟩ := extends_waitOnKext t handler stored
    exact ⟨hstep, _, _, h.trans hs hnew'.consumes⟩

theorem Consumed.run (hs : Registered s) (h : Consumed s t) (events : List Event) :
    Consumed s (events.foldl (Listener.step S) t) := by
  have hstep : ∀ (t : Listener) (e : Event), Consumed s t → Consumed s (t.step S e) :=
    fun _ e h => h.step hs e
  exact foldl_invariant hstep events h

theorem Consumed.refl (hs : Registered s) : Consumed s s :=
  ⟨hs, _, _, .of_same rfl rfl rfl⟩

end Listener

end Lilu.Kext
