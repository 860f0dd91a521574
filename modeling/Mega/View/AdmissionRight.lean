/-
# Admissions keep versions and quotas

In every state that admissions and filter state changes reach, the versions of a
view name are 1, 2, …, k, and two versions in a row are bound to different
filters. An admission starts a warm-up only while both counts are below their
quotas, a rejected one changes nothing, and an admitted request that is repeated
finds everything in place.

The invariant (`Wellformed`) says beside the versions that ids and filter ids
are unique and that every view is bound to a filter that is there: a filter that
an admission creates is therefore another one than that of the latest version.

Key definitions: `Wellformed`, `Admitted`.
Key theorems: `admit_cases`, `wellformed_run`, `admission_invariants`, `versions_are_final`.
-/
import Mega.View.Admission

namespace Mega
namespace Admission

open List Table View

variable {filters filters' : List FilterRow}

structure Wellformed (tables : Tables) : Prop where
  ids : (tables.filters.map (·.id)).Nodup
  filterIds : (tables.filters.map (·.definition.filterId)).Nodup
  bound : ∀ view ∈ tables.views, view.filterPk ∈ tables.filters.map (·.id)
  versions : ∀ name, (versionsOf tables.views name).map (·.version) =
    List.range' 1 (versionsOf tables.views name).length
  rebound : ∀ name, ((versionsOf tables.views name).map (·.filterPk)).IsChain (· ≠ ·)

/-! ### What an admission does -/

/-- An admission that goes through. -/
structure Admitted (tables : Tables) (mode : AdmitMode) (limits : AdmitLimits) (now : ℕ) (newIds : NewIds)
    (filterPk : ℕ) (version : Option ℕ) (tables' : Tables) : Prop where
  due : (situation tables mode).coldStart = true ∨ (situation tables mode).needsVersion = true
  allowed : rejection tables mode limits now (situation tables mode).coldStart = none
  filter : placeFilter tables.filters mode (situation tables mode) newIds.filter now =
    .ok (filterPk, tables'.filters)
  view : placeVersion tables.views mode (situation tables mode) filterPk newIds.view now =
    .ok (version, tables'.views)

/-- The ways an admission can end. -/
theorem admit_cases (tables : Tables) (mode : AdmitMode) (limits : AdmitLimits) (now : ℕ) (newIds : NewIds) :
    (∃ e, admitView tables mode limits now newIds = (.error e, tables)) ∨
    (∃ reason retryAfter, admitView tables mode limits now newIds = (.ok (.rejected reason retryAfter), tables)) ∨
    (∃ version ready, admitView tables mode limits now newIds = (.ok (.idempotent version ready), tables)) ∨
    ∃ filterPk version tables', admitView tables mode limits now newIds =
        (.ok (.admitted version (situation tables mode).ready), tables') ∧
      Admitted tables mode limits now newIds filterPk version tables' := by
  unfold admitView
  dsimp only
  split
  · exact .inl ⟨_, rfl⟩
  · split
    · exact .inr (.inr (.inl ⟨_, _, rfl⟩))
    · rename_i hdue
      split
      · exact .inr (.inl ⟨_, _, rfl⟩)
      · rename_i hallowed
        split
        · exact .inl ⟨_, rfl⟩
        · rename_i filterPk filters hfilter
          split
          · exact .inl ⟨_, rfl⟩
          · rename_i version views hview
            refine .inr (.inr (.inr ⟨filterPk, version, _, rfl, ?_, hallowed, hfilter, hview⟩))
            by_contra hnot
            simp only [not_or, Bool.not_eq_true] at hnot
            simp [hnot.1, hnot.2] at hdue

section Effects

variable {tables tables' : Tables} {mode : AdmitMode} {limits : AdmitLimits} {now filterPk : ℕ} {newIds : NewIds}
  {version : Option ℕ}

/-- What `existingFilter` finds is in the table. -/
theorem existingFilter_mem {filter : FilterRow} (h : mode.existingFilter filters = some filter) :
    filter ∈ filters := by
  cases mode with
  | register definition name requester => exact mem_of_find?_eq_some h
  | rewarm filterPk => exact mem_of_find?_eq_some h

/-- An update of states finds the same filter. -/
theorem existingFilter_updateKey {change : FilterRow → FilterRow} (hid : ∀ filter, (change filter).id = filter.id)
    (hdef : ∀ filter, (change filter).definition = filter.definition) (k : ℕ) (filters : List FilterRow) :
    mode.existingFilter (updateKey FilterRow.id k change filters) =
      (mode.existingFilter filters).map fun filter => if filter.id = k then change filter else filter := by
  cases mode with
  | register definition name requester =>
    exact find?_updateKey (fun filter => by rw [hdef]) k filters
  | rewarm filterPk =>
    exact find?_updateKey (fun filter => by rw [hid]) k filters

/-- How the filter of an admitted request gets into place. -/
inductive Placed (filters : List FilterRow) (mode : AdmitMode) (now : ℕ) : ℕ → List FilterRow → Prop where
  | warmed (filter : FilterRow) (found : mode.existingFilter filters = some filter) (cold : filter.cold = true) :
      Placed filters mode now filter.id (warmFilter filters filter.id now)
  | kept (filter : FilterRow) (found : mode.existingFilter filters = some filter) (cold : filter.cold = false) :
      Placed filters mode now filter.id filters
  | created (definition : FilterDefinition) (name : Option Text) (requester : Text) {newId : ℕ}
      (request : mode = .register definition name requester) (absent : mode.existingFilter filters = none)
      (fresh : newId ∉ filters.map (·.id)) :
      Placed filters mode now newId (filters ++ [⟨newId, definition, 0, none, some now, none, now⟩])

theorem Admitted.placed (h : Admitted tables mode limits now newIds filterPk version tables') :
    Placed tables.filters mode now filterPk tables'.filters := by
  have hplace := h.filter
  unfold placeFilter at hplace
  cases hfound : mode.existingFilter tables.filters with
  | some filter =>
    have hexisting : (situation tables mode).existing = some filter := hfound
    have hcold : (situation tables mode).coldStart = filter.cold := by simp [situation, hfound]
    rw [hexisting, hcold] at hplace
    simp only at hplace
    cases hc : filter.cold with
    | true =>
      simp only [hc, if_true, Except.ok.injEq, Prod.mk.injEq] at hplace
      rw [← hplace.1, ← hplace.2]
      exact .warmed filter hfound hc
    | false =>
      simp only [hc, Bool.false_eq_true, if_false, Except.ok.injEq, Prod.mk.injEq] at hplace
      rw [← hplace.1, ← hplace.2]
      exact .kept filter hfound hc
  | none =>
    have hexisting : (situation tables mode).existing = none := hfound
    rw [hexisting] at hplace
    cases mode with
    | rewarm pk => cases hplace
    | register definition name requester =>
      simp only [insertFilter] at hplace
      split at hplace
      · cases hplace
      · split at hplace
        · cases hplace
        · rename_i hfresh
          simp only [Except.ok.injEq, Prod.mk.injEq] at hplace
          rw [← hplace.1, ← hplace.2]
          refine .created definition name requester rfl hfound ?_
          simpa using hfresh

theorem map_id_warmFilter (filters : List FilterRow) (pk now : ℕ) :
    (warmFilter filters pk now).map (·.id) = filters.map (·.id) := by
  exact map_updateKey (by intro filter; rfl) pk filters

/-- The filters that were there are still there, and the admitted one is. -/
theorem Placed.ids (h : Placed filters mode now filterPk filters') (hnodup : (filters.map (·.id)).Nodup) :
    (filters'.map (·.id)).Nodup ∧ filters.map (·.id) ⊆ filters'.map (·.id) ∧ filterPk ∈ filters'.map (·.id) := by
  cases h with
  | warmed filter found cold =>
    rw [map_id_warmFilter]
    exact ⟨hnodup, fun _ => id, mem_map_of_mem (existingFilter_mem found)⟩
  | kept filter found cold => exact ⟨hnodup, fun _ => id, mem_map_of_mem (existingFilter_mem found)⟩
  | created definition name requester request absent fresh =>
    rw [map_append]
    refine ⟨nodup_append.mpr ⟨hnodup, nodup_singleton _, ?_⟩, subset_append_left _ _, by simp⟩
    rintro id hid _ hnew rfl
    rw [map_singleton, mem_singleton] at hnew
    rw [hnew] at hid
    exact fresh hid

theorem Placed.filterIds (h : Placed filters mode now filterPk filters')
    (hnodup : (filters.map (·.definition.filterId)).Nodup) : (filters'.map (·.definition.filterId)).Nodup := by
  cases h with
  | warmed filter found cold =>
    have hsame : (warmFilter filters filter.id now).map (·.definition.filterId) =
        filters.map (·.definition.filterId) := by
      exact map_updateKey (by intro filter; rfl) filter.id filters
    rw [hsame]
    exact hnodup
  | kept filter found cold => exact hnodup
  | created definition name requester request absent fresh =>
    subst request
    rw [map_append]
    refine nodup_append.mpr ⟨hnodup, nodup_singleton _, ?_⟩
    rintro filterId hold _ hnew rfl
    obtain ⟨filter, hmem, heq⟩ := mem_map.mp hold
    rw [map_singleton, mem_singleton] at hnew
    have habsent := List.find?_eq_none.mp absent filter hmem
    rw [heq, hnew] at habsent
    simp at habsent

/-- The filter of an admitted request is found again, and is no longer cold. -/
theorem Placed.found (h : Placed filters mode now filterPk filters') :
    ∃ filter, mode.existingFilter filters' = some filter ∧ filter.id = filterPk ∧ filter.cold = false ∧
      filter.readySeq.isSome = (mode.existingFilter filters).any (·.readySeq.isSome) := by
  cases h with
  | warmed filter found cold =>
    refine ⟨filter.warmedAt now, ?_, rfl, by simp [FilterRow.cold, FilterRow.warmedAt],
      by simp [found, FilterRow.warmedAt]⟩
    have hupdate : mode.existingFilter (warmFilter filters filter.id now) = (mode.existingFilter filters).map
        fun row => if row.id = filter.id then row.warmedAt now else row :=
      existingFilter_updateKey (by intro row; rfl) (by intro row; rfl) filter.id filters
    rw [hupdate, found]
    simp
  | kept filter found cold => exact ⟨filter, found, rfl, cold, by simp [found]⟩
  | created definition name requester request absent fresh =>
    subst request
    refine ⟨⟨filterPk, definition, 0, none, some now, none, now⟩, ?_, rfl, by simp [FilterRow.cold], by simp [absent]⟩
    show List.find? _ (filters ++ _) = _
    have habsent : filters.find? (fun filter => filter.definition.filterId == definition.filterId) = none := absent
    rw [List.find?_append, habsent]
    simp

/-- A count of filters that a warm-up enters goes up by one at a cold start, and
stays as it is otherwise. -/
theorem Placed.countP (h : Placed filters mode now filterPk filters') (hnodup : (filters.map (·.id)).Nodup)
    {p : FilterRow → Bool} (hcold : ∀ filter, filter.cold = true → p filter = false)
    (hwarm : ∀ filter time, filter.warmingSince = some time → p filter = true) :
    filters'.countP p = filters.countP p + if (mode.existingFilter filters).all (·.cold) then 1 else 0 := by
  cases h with
  | warmed filter found cold =>
    obtain ⟨before, after, hsplit, hupdate⟩ : ∃ before after, filters = before ++ filter :: after ∧
        updateKey FilterRow.id filter.id (FilterRow.warmedAt now) filters =
          before ++ filter.warmedAt now :: after := updateKey_of_mem hnodup (existingFilter_mem found)
    have hnew : p (filter.warmedAt now) = true := hwarm _ now rfl
    have hold : p filter = false := hcold filter cold
    have hcount : filters.countP p = before.countP p + after.countP p := by
      rw [hsplit, countP_append, countP_cons_of_neg (by simp [hold])]
    rw [warmFilter, hupdate, countP_append, countP_cons_of_pos hnew, hcount, found]
    simp only [Option.all_some, cold, if_true]
    omega
  | kept filter found cold => simp [found, cold]
  | created definition name requester request absent fresh =>
    have hnew : p ⟨filterPk, definition, 0, none, some now, none, now⟩ = true := hwarm _ now rfl
    simp [absent, hnew]

/-! ### Versions -/

theorem latest_eq (h : Wellformed tables) (mode : AdmitMode) : (situation tables mode).latest =
    mode.name.bind fun name => (versionsOf tables.views name).getLast? := by
  have htop : ∀ name, topBy (·.version) (versionsOf tables.views name) =
      (versionsOf tables.views name).getLast? := fun name =>
    topBy_eq_getLast? (pairwise_of_numbered (h.versions name))
  simp only [situation, htop]

theorem versionsOf_append (views : List ViewRow) (view : ViewRow) (name : Text) :
    versionsOf (views ++ [view]) name = versionsOf views name ++ if view.name = name then [view] else [] := by
  rw [versionsOf, filter_append, filter_singleton]
  simp [versionsOf]

/-- The version of an admitted request: a new one after the latest, or the
latest. -/
theorem Admitted.versioned (hw : Wellformed tables) (h : Admitted tables mode limits now newIds filterPk version tables') :
    (situation tables mode).needsVersion = false ∧ tables'.views = tables.views ∧
      version = (situation tables mode).latest.map (·.version) ∨
    ∃ view, mode.name = some view.name ∧ (situation tables mode).needsVersion = true ∧
      tables'.views = tables.views ++ [view] ∧ view.filterPk = filterPk ∧
      view.version = (versionsOf tables.views view.name).length + 1 ∧ version = some view.version := by
  have hplace := h.view
  have hlatest := latest_eq hw mode
  have hunnamed : mode.name = none → (situation tables mode).needsVersion = false := by
    intro hnone
    simp [situation, needsVersion, hnone]
  unfold placeVersion at hplace
  split at hplace
  · rename_i definition name requester
    split at hplace
    · rename_i hneeds
      unfold insertView at hplace
      dsimp only at hplace
      split at hplace
      · cases hplace
      · split at hplace
        · cases hplace
        · simp only [Except.map, Except.ok.injEq, Prod.mk.injEq] at hplace
          have hname : (AdmitMode.register definition (some name) requester).name = some name := rfl
          have hnumber : (situation tables (.register definition (some name) requester)).latest.elim 1
              (·.version + 1) = (versionsOf tables.views name).length + 1 := by
            rw [hlatest, hname, Option.bind_some]
            cases hlast : (versionsOf tables.views name).getLast? with
            | none =>
              rw [List.getLast?_eq_none_iff.mp hlast]
              rfl
            | some view =>
              have hview : view.version = (versionsOf tables.views name).length :=
                key_getLast_of_numbered (hw.versions name) hlast
              simp [hview]
          refine .inr ⟨_, rfl, hneeds, hplace.2.symm, rfl, hnumber, hplace.1.symm⟩
    · rename_i hneeds
      simp only [Except.ok.injEq, Prod.mk.injEq] at hplace
      exact .inl ⟨by simpa using hneeds, hplace.2.symm, hplace.1.symm⟩
  · rename_i hmode
    simp only [Except.ok.injEq, Prod.mk.injEq] at hplace
    refine .inl ⟨hunnamed ?_, hplace.2.symm, hplace.1.symm⟩
    cases mode with
    | rewarm pk => rfl
    | register definition name requester =>
      cases name with
      | none => rfl
      | some name => exact absurd rfl (hmode definition name requester)

/-- A new version is bound to another filter than the latest one. -/
theorem Admitted.latest_ne (hw : Wellformed tables)
    (h : Admitted tables mode limits now newIds filterPk version tables')
    (hneeds : (situation tables mode).needsVersion = true) {name : Text} (hname : mode.name = some name)
    {latest : ViewRow} (hlatest : (situation tables mode).latest = some latest) : latest.filterPk ≠ filterPk := by
  have hexisting : (situation tables mode).existing = mode.existingFilter tables.filters := rfl
  have hneeds' : needsVersion mode.name (mode.existingFilter tables.filters) (some latest) = true := by
    rw [← hlatest]
    exact hneeds
  rw [hname] at hneeds'
  have hmem : latest ∈ tables.views := by
    rw [latest_eq hw, hname, Option.bind_some] at hlatest
    exact mem_of_mem_filter (mem_of_getLast? hlatest)
  have hplaced := h.placed
  generalize tables'.filters = filters at hplaced
  cases hplaced with
  | warmed filter found cold =>
    rw [found] at hneeds'
    have hne : filter.id ≠ latest.filterPk := by simpa [needsVersion] using hneeds'
    exact hne.symm
  | kept filter found cold =>
    rw [found] at hneeds'
    have hne : filter.id ≠ latest.filterPk := by simpa [needsVersion] using hneeds'
    exact hne.symm
  | created definition name' requester request absent fresh =>
    intro heq
    exact fresh (heq ▸ hw.bound latest hmem)

/-- **An admission keeps the tables well formed.** -/
theorem Admitted.wellformed (hw : Wellformed tables)
    (h : Admitted tables mode limits now newIds filterPk version tables') : Wellformed tables' := by
  obtain ⟨hids, hsub, hmem⟩ := h.placed.ids hw.ids
  have hfilterIds := h.placed.filterIds hw.filterIds
  rcases h.versioned hw with ⟨-, hviews, -⟩ | ⟨view, hname, hneeds, hviews, hpk, hnumber, -⟩
  · refine ⟨hids, hfilterIds, fun view hview => hsub (hw.bound view (hviews ▸ hview)), ?_, ?_⟩
    · rw [hviews]
      exact hw.versions
    · rw [hviews]
      exact hw.rebound
  · refine ⟨hids, hfilterIds, fun row hrow => ?_, fun name => ?_, fun name => ?_⟩
    · rw [hviews] at hrow
      rcases mem_append.mp hrow with hold | hnew
      · exact hsub (hw.bound row hold)
      · rw [mem_singleton.mp hnew, hpk]
        exact hmem
    · rw [hviews, versionsOf_append]
      by_cases hsame : view.name = name
      · subst hsame
        have hadd : 1 + (versionsOf tables.views view.name).length = view.version := by omega
        rw [if_pos rfl, map_append, hw.versions, length_append, length_singleton,
          List.range'_concat]
        simp [hadd]
      · rw [if_neg hsame, append_nil]
        exact hw.versions name
    · rw [hviews, versionsOf_append]
      by_cases hsame : view.name = name
      · subst hsame
        rw [if_pos rfl, map_append]
        refine isChain_append.mpr ⟨hw.rebound _, isChain_singleton _, fun pk hpk' next hnext => ?_⟩
        obtain rfl : view.filterPk = next := by simpa using hnext
        rw [List.getLast?_map] at hpk'
        obtain ⟨latest, hlast, rfl⟩ := Option.map_eq_some_iff.mp hpk'
        rw [hpk]
        refine h.latest_ne hw hneeds hname ?_
        rw [latest_eq hw, hname, Option.bind_some]
        exact hlast
      · rw [if_neg hsame, append_nil]
        exact hw.rebound name

/-! ### Repetition -/

/-- **An admitted request that is repeated changes nothing.** -/
theorem Admitted.again (hw : Wellformed tables) (h : Admitted tables mode limits now newIds filterPk version tables')
    (limits' : AdmitLimits) (now' : ℕ) (newIds' : NewIds) :
    admitView tables' mode limits' now' newIds' =
      (.ok (.idempotent version (situation tables mode).ready), tables') := by
  have hw' := h.wellformed hw
  obtain ⟨filter, hfound, hid, hcold, hready⟩ := h.placed.found
  have hexisting : (situation tables' mode).existing = some filter := hfound
  have hcold' : (situation tables' mode).coldStart = false := by simp [situation, hfound, hcold]
  have hready' : (situation tables' mode).ready = (situation tables mode).ready := by
    simp [situation, hfound, hready]
  have hlatest : (situation tables' mode).latest.map (·.version) = version ∧
      (situation tables' mode).needsVersion = false := by
    have hneeds' : (situation tables' mode).needsVersion =
        needsVersion mode.name (some filter) (situation tables' mode).latest := by
      rw [← hexisting]
      rfl
    rcases h.versioned hw with ⟨hneeds, hviews, hversion⟩ | ⟨view, hname, -, hviews, hpk, -, hversion⟩
    · have hsame : (situation tables' mode).latest = (situation tables mode).latest := by
        simp only [situation, hviews]
      refine ⟨by rw [hsame, hversion], ?_⟩
      rw [hneeds', hsame]
      have hneeds'' : needsVersion mode.name (mode.existingFilter tables.filters)
          (situation tables mode).latest = false := hneeds
      cases hname : mode.name with
      | none => rfl
      | some name =>
        rw [hname] at hneeds''
        cases hlast : (situation tables mode).latest with
        | none => simp [hlast, needsVersion] at hneeds''
        | some latest =>
          rw [hlast] at hneeds''
          -- the filter was there, and the latest version is bound to it
          have hplaced := h.placed
          generalize tables'.filters = filters at hplaced
          cases hplaced with
          | warmed found hold _ =>
            rw [hold] at hneeds''
            simpa [needsVersion, hid] using hneeds''
          | kept found hold _ =>
            rw [hold] at hneeds''
            simpa [needsVersion, hid] using hneeds''
          | created definition name' requester request absent fresh =>
            simp [absent, needsVersion] at hneeds''
    · have hlast : (situation tables' mode).latest = some view := by
        rw [latest_eq hw', hname, Option.bind_some, hviews, versionsOf_append, if_pos rfl]
        simp
      refine ⟨by rw [hlast, hversion]; rfl, ?_⟩
      rw [hneeds', hlast, hname]
      simp [needsVersion, hid, hpk]
  unfold admitView
  dsimp only
  rw [hexisting, hcold', hlatest.1, hlatest.2, hready']
  cases mode <;> rfl

end Effects

/-! ### Runs -/

theorem wellformed_step {tables : Tables} (h : Wellformed tables) : ∀ event : Event, Wellformed (step tables event)
  | .admitView mode limits now newIds => by
    rw [step]
    rcases admit_cases tables mode limits now newIds with
      ⟨e, heq⟩ | ⟨reason, retryAfter, heq⟩ | ⟨version, ready, heq⟩ | ⟨filterPk, version, tables', heq, hadmitted⟩
    · rw [heq]
      exact h
    · rw [heq]
      exact h
    · rw [heq]
      exact h
    · rw [heq]
      exact hadmitted.wellformed h
  | .setState filterPk projectedSeq readySeq warmingSince lastAccessAt => by
    have hids : (setState tables.filters filterPk projectedSeq readySeq warmingSince lastAccessAt).map (·.id) =
        tables.filters.map (·.id) := map_updateKey (by intro filter; rfl) filterPk tables.filters
    have hfilterIds : (setState tables.filters filterPk projectedSeq readySeq warmingSince lastAccessAt).map
        (·.definition.filterId) = tables.filters.map (·.definition.filterId) :=
      map_updateKey (by intro filter; rfl) filterPk tables.filters
    refine ⟨?_, ?_, fun view hview => ?_, h.versions, h.rebound⟩
    · exact hids ▸ h.ids
    · exact hfilterIds ▸ h.filterIds
    · exact hids ▸ h.bound view hview

theorem wellformed_run (events : List Event) {tables : Tables} (h : Wellformed tables) :
    Wellformed (run tables events) :=
  @Run.run_invariant _ _ step Wellformed (fun _ event h => wellformed_step h event) _ events h

def Tables.empty : Tables := ⟨[], [], []⟩

theorem wellformed_empty : Wellformed Tables.empty :=
  ⟨nodup_nil, nodup_nil, by simp [Tables.empty], fun _ => rfl, fun _ => isChain_nil⟩

/-- What the quotas leave: a cold start finds both counts below them. -/
theorem below_of_allowed {tables : Tables} {mode : AdmitMode} {limits : AdmitLimits} {now : ℕ}
    (h : rejection tables mode limits now true = none) :
    tables.filters.countP FilterRow.active < limits.maxFilters ∧
      tables.filters.countP FilterRow.warming < limits.maxConcurrentColdStarts := by
  unfold rejection at h
  simp only [if_true, Option.or_eq_none_iff] at h
  have hquota := h.2
  split at hquota
  · cases hquota
  · split at hquota
    · cases hquota
    · omega

/-- The counts of warming and of active filters stay within the larger of their
quota and what they were. -/
theorem Admitted.counts {tables tables' : Tables} {mode : AdmitMode} {limits : AdmitLimits} {now filterPk : ℕ}
    {newIds : NewIds} {version : Option ℕ} (hw : Wellformed tables)
    (h : Admitted tables mode limits now newIds filterPk version tables') :
    tables'.filters.countP FilterRow.warming ≤ max (tables.filters.countP FilterRow.warming) limits.maxConcurrentColdStarts ∧
      tables'.filters.countP FilterRow.active ≤ max (tables.filters.countP FilterRow.active) limits.maxFilters := by
  have hwarming := h.placed.countP (p := FilterRow.warming) hw.ids
    (fun filter hcold => by
      simp only [FilterRow.cold, Bool.and_eq_true, Option.isNone_iff_eq_none] at hcold
      simp [FilterRow.warming, hcold.2])
    (fun filter time hwarm => by simp [FilterRow.warming, hwarm])
  have hactive := h.placed.countP (p := FilterRow.active) hw.ids
    (fun filter hcold => by
      simp only [FilterRow.cold, Bool.and_eq_true, beq_iff_eq, Option.isNone_iff_eq_none] at hcold
      simp [FilterRow.active, hcold.1.1, hcold.2])
    (fun filter time hwarm => by simp [FilterRow.active, hwarm])
  have hallowed := h.allowed
  have hcold : (situation tables mode).coldStart = (mode.existingFilter tables.filters).all (·.cold) := rfl
  rw [hcold] at hallowed
  cases hc : (mode.existingFilter tables.filters).all (·.cold) with
  | true =>
    rw [hc] at hallowed hwarming hactive
    have hbelow := below_of_allowed hallowed
    simp only [if_true] at hwarming hactive
    omega
  | false =>
    rw [hc] at hwarming hactive
    simp only [Bool.false_eq_true, if_false] at hwarming hactive
    omega

/-- **Admissions keep versions and quotas.** In every state that requests and
filter state changes reach, each view name has the versions 1 to k, any two in a
row bound to different filters. An admission makes neither count exceed its
quota, a rejected one changes nothing, and a request that was admitted, made
again at once, is idempotent with the same version. -/
theorem admission_invariants (events : List Event) :
    (∀ name, (versionsOf (run .empty events).views name).map (·.version) =
        List.range' 1 (versionsOf (run .empty events).views name).length ∧
      ((versionsOf (run .empty events).views name).map (·.filterPk)).IsChain (· ≠ ·)) ∧
    ∀ mode limits now newIds answer tables', admitView (run .empty events) mode limits now newIds = (answer, tables') →
      tables'.filters.countP FilterRow.warming ≤
        max ((run .empty events).filters.countP FilterRow.warming) limits.maxConcurrentColdStarts ∧
      tables'.filters.countP FilterRow.active ≤ max ((run .empty events).filters.countP FilterRow.active) limits.maxFilters ∧
      (∀ reason retryAfter, answer = .ok (.rejected reason retryAfter) → tables' = run .empty events) ∧
      ∀ version ready, answer = .ok (.admitted version ready) → ∀ limits' now' newIds',
        admitView tables' mode limits' now' newIds' = (.ok (.idempotent version ready), tables') := by
  have hw := wellformed_run events wellformed_empty
  refine ⟨fun name => ⟨hw.versions name, hw.rebound name⟩, fun mode limits now newIds answer tables' hadmit => ?_⟩
  rcases admit_cases (run .empty events) mode limits now newIds with
    ⟨e, heq⟩ | ⟨reason, retryAfter, heq⟩ | ⟨version, ready, heq⟩ | ⟨filterPk, version, after, heq, hadmitted⟩
  · rw [heq] at hadmit
    cases hadmit
    exact ⟨le_max_left _ _, le_max_left _ _, fun _ _ _ => rfl, by simp⟩
  · rw [heq] at hadmit
    cases hadmit
    exact ⟨le_max_left _ _, le_max_left _ _, fun _ _ _ => rfl, by simp⟩
  · rw [heq] at hadmit
    cases hadmit
    exact ⟨le_max_left _ _, le_max_left _ _, fun _ _ _ => rfl, by simp⟩
  · rw [heq] at hadmit
    cases hadmit
    obtain ⟨hwarming, hactive⟩ := hadmitted.counts hw
    refine ⟨hwarming, hactive, by simp, fun version' ready' hanswer limits' now' newIds' => ?_⟩
    cases hanswer
    exact hadmitted.again hw limits' now' newIds'

/-- Registers the filter `:/docs` as the view `docs`. -/
def docsRequest : AdmitMode :=
  .register ⟨"f1".toList, ":/docs".toList, 1, "sha1".toList, ["/docs".toList], true⟩ (some "docs".toList)
    "token".toList

/-- The first registration takes the one slot there is; made again without any
slots, it is idempotent. -/
theorem admission_invariants_docsRequest : ∃ tables',
    admitView .empty docsRequest ⟨1, 1, 1⟩ 0 ⟨7, 8⟩ = (.ok (.admitted (some 1) false), tables') ∧
    tables'.filters.countP FilterRow.warming = 1 ∧
    admitView tables' docsRequest ⟨0, 0, 0⟩ 5 ⟨9, 10⟩ = (.ok (.idempotent (some 1) false), tables') := by
  have hfirst : admitView .empty docsRequest ⟨1, 1, 1⟩ 0 ⟨7, 8⟩ =
      (.ok (.admitted (some 1) false), (admitView .empty docsRequest ⟨1, 1, 1⟩ 0 ⟨7, 8⟩).2) := by decide +kernel
  refine ⟨_, hfirst, by decide +kernel, ?_⟩
  exact ((admission_invariants []).2 docsRequest ⟨1, 1, 1⟩ 0 ⟨7, 8⟩ _ _ hfirst).2.2.2 (some 1) false rfl _ _ _

/-! ### What is registered stays -/

/-- Later tables: views, and filters with their definitions, are only added. -/
structure Later (tables tables' : Tables) : Prop where
  views : tables.views <+: tables'.views
  definitions : tables.filters.map (fun filter => (filter.id, filter.definition)) <+:
    tables'.filters.map fun filter => (filter.id, filter.definition)

theorem later_refl (tables : Tables) : Later tables tables := ⟨prefix_rfl, prefix_rfl⟩

theorem Placed.definitions {mode : AdmitMode} {now filterPk : ℕ} (h : Placed filters mode now filterPk filters') :
    filters.map (fun filter => (filter.id, filter.definition)) <+:
      filters'.map fun filter => (filter.id, filter.definition) := by
  cases h with
  | warmed filter found cold => rw [warmFilter, map_updateKey (by intro filter; rfl)]
  | kept filter found cold => exact prefix_rfl
  | created definition name requester request absent fresh => exact map_append ▸ prefix_append _ _

theorem later_step {tables : Tables} (h : Wellformed tables) (event : Event) : Later tables (step tables event) := by
  cases event with
  | setState filterPk projectedSeq readySeq warmingSince lastAccessAt =>
    refine ⟨prefix_rfl, ?_⟩
    rw [step, setState, map_updateKey (by intro filter; rfl)]
  | admitView mode limits now newIds =>
    rw [step]
    rcases admit_cases tables mode limits now newIds with
      ⟨e, heq⟩ | ⟨reason, retryAfter, heq⟩ | ⟨version, ready, heq⟩ | ⟨filterPk, version, tables', heq, hadmitted⟩
    · exact heq ▸ later_refl tables
    · exact heq ▸ later_refl tables
    · exact heq ▸ later_refl tables
    rw [heq]
    constructor
    · rcases hadmitted.versioned h with ⟨-, hviews, -⟩ | ⟨view, -, -, hviews, -⟩
      · rw [hviews]
      · exact hviews ▸ prefix_append _ _
    · exact hadmitted.placed.definitions

/-- **A registered version is final.** Whatever is requested later, the versions of all views stay as they are, with
their filters, and so does the definition of every filter. -/
theorem versions_are_final (events more : List Event) : Later (run .empty events) (run .empty (events ++ more)) := by
  rw [run, run, Run.run_append]
  exact Run.run_relation later_refl (fun h h' => ⟨h.views.trans h'.views, h.definitions.trans h'.definitions⟩)
    (fun _ event h => wellformed_step h event) (fun _ event h => later_step h event) more
    (wellformed_run events wellformed_empty)

end Admission
end Mega
