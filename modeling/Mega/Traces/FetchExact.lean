/-
# A fetch sends exactly the missing closure

The loops of a fetch are the depth-first walk and the closure collection of
`Mega.Lib.DepthFirst`, over objects with the types their references require.
`walk_matches` and `selectClosure_matches` say so; from there the library gives
that the walk rejects exactly the graphs with a cycle below the tip, and that
the haves and the wants select what they lead to.

The graph is that of the stored bytes: an object links to the references in them.

Key definitions: `Stream.Stores`, `Stream.Links`, `Stream.Sound`, `Recorded`, `Listed`, `Missing`.
Key theorems: `walk_matches`, `selectClosure_matches`, `selectAll_cases`, `walk_cases`,
`fetch_sends_missing_closure`.
-/
import Mega.Lib.DepthFirst
import Mega.Lib.Fallible
import Mega.Traces.Fetch

namespace Mega
namespace Traces

open List

open DepthFirst (Next Outcome Covers gather gather_covers)
open Explore (ahead)

namespace Stream

variable (stream : Stream)

/-- The stored object of an id: it is not too large, and it has the id's hash. -/
structure Stores (oid : String) (raw : VerifiedRawObject) : Prop where
  stored : stream.stored oid = some raw
  size : raw.bytes.length ≤ maxObjectBytes
  verified : stream.verified oid raw = true

/-- The references of a well-formed stored object. -/
def References (oid : String) (kind : RawObjectType) (refs : List Ref) : Prop :=
  ∃ bytes, stream.Stores oid ⟨kind, bytes⟩ ∧ RefsIn stream.width kind bytes refs

/-- The object is visible and well formed, and it has the type that a reference requires. -/
def HasType (oid : String) (kind : RawObjectType) : Prop := oid ∈ stream.visible ∧ ∃ refs, stream.References oid kind refs

/-- The links of an object, with the type each requires. -/
def Links (oid : String) (edge : Ref) : Prop := ∃ kind refs, stream.References oid kind refs ∧ edge ∈ refs

/-- `b` is in the closure of `a`. -/
def Reaches : String → String → Prop := Relation.ReflTransGen fun a b => ∃ kind, stream.Links a (b, kind)

/-- A link below `root` leads back to an object on the way to it. -/
def HasCycle (root : String) : Prop :=
  ∃ oid, stream.Reaches root oid ∧ Relation.TransGen (fun a b => ∃ kind, stream.Links a (b, kind)) oid oid

/-- All objects below the tip can be read with the type that each reference to them requires. -/
structure Sound (root : String) : Prop where
  tip : stream.HasType root .commit
  links : ∀ oid, stream.Reaches root oid → ∀ target kind, stream.Links oid (target, kind) → stream.HasType target kind

/-- The id that a text names is in the closure of the root. -/
def InClosure (root rawOid : String) : Prop :=
  ∃ oid, stream.canonicalOid rawOid = .ok oid ∧ stream.Reaches root oid

/-- The error for a want that is not in the closure: the text is no id, or it names no object of the stream. -/
def refusal (want : String) : TracesError :=
  match stream.canonicalOid want with
  | .error e => e
  | .ok _ => .unknownScope

variable {stream} {root oid target : String} {kind : RawObjectType}

theorem InClosure.reaches {want : String} (h : stream.InClosure root want) (hoid : stream.canonicalOid want = .ok oid) :
    stream.Reaches root oid := by
  obtain ⟨oid', hoid', hreach⟩ := h
  cases hoid.symm.trans hoid'
  exact hreach

theorem readVerifiedRaw_eq_some {raw : VerifiedRawObject} :
    stream.readVerifiedRaw oid = .ok (some raw) ↔ stream.Stores oid raw := by
  unfold readVerifiedRaw
  constructor
  · intro h
    split at h
    · simp at h
    · rename_i stored hstored
      split_ifs at h with hsize hverified
      obtain rfl : stored = raw := by simpa using h
      exact ⟨hstored, Nat.not_lt.mp hsize, hverified⟩
  · intro h
    simp [h.stored, Nat.not_lt.mpr h.size, h.verified]

theorem edgesOf_eq_ok {bytes : List UInt8} {edges : List Ref} :
    stream.edgesOf ⟨kind, bytes⟩ = .ok edges ↔ RefsIn stream.width kind bytes edges := by
  unfold edgesOf
  constructor
  · intro h
    cases kind with
    | commit =>
      dsimp only at h
      split at h
      · cases h
      · rename_i links hlinks
        cases h
        exact .commit (verifiedCommitLinks_eq_some.mp hlinks)
    | tree =>
      dsimp only at h
      split at h
      · cases h
      · rename_i entries hentries
        cases h
        obtain ⟨htree, horder⟩ := verifiedTreeEntries_eq_some.mp hentries
        exact .tree htree horder
    | blob =>
      cases h
      exact .blob
    | tag => cases h
  · rintro (h | ⟨h, horder⟩ | -)
    · simp [verifiedCommitLinks_eq_some.mpr h]
    · simp [verifiedTreeEntries_eq_some.mpr ⟨h, horder⟩]
    · rfl

theorem Stores.unique {raw raw' : VerifiedRawObject} (h : stream.Stores oid raw) (h' : stream.Stores oid raw') :
    raw = raw' := Option.some.inj (h.stored.symm.trans h'.stored)

theorem References.targets_eq {refs : List Ref} (h : stream.References oid kind refs) :
    stream.targets oid = refs.map (·.1) := by
  obtain ⟨bytes, hstores, hrefs⟩ := h
  simp [targets, readVerifiedRaw_eq_some.mpr hstores, edgesOf_eq_ok.mpr hrefs]

theorem mem_targets : target ∈ stream.targets oid ↔ ∃ kind, stream.Links oid (target, kind) := by
  constructor
  · intro h
    unfold targets at h
    split at h
    · rename_i raw hraw
      split at h
      · rename_i edges hedges
        obtain ⟨edge, hedge, rfl⟩ := mem_map.mp h
        exact ⟨edge.2, raw.objectType, edges, ⟨raw.bytes, readVerifiedRaw_eq_some.mp hraw, edgesOf_eq_ok.mp hedges⟩, hedge⟩
      · simp at h
    · simp at h
  · rintro ⟨kind, kind', refs, hrefs, hmem⟩
    rw [hrefs.targets_eq]
    exact mem_map.mpr ⟨_, hmem, rfl⟩

theorem next_eq : Next stream.targets = fun a b => ∃ kind, stream.Links a (b, kind) := by
  funext a b
  exact propext mem_targets

theorem reaches_eq : stream.Reaches = Relation.ReflTransGen (Next stream.targets) := by
  rw [Reaches, next_eq]

/-- An object below the tip has a type. -/
theorem Sound.hasType (h : stream.Sound root) (hreach : stream.Reaches root oid) :
    ∃ kind, stream.HasType oid kind := by
  obtain heq | ⟨parent, hparent, kind, hlink⟩ := Relation.ReflTransGen.cases_tail hreach
  · exact ⟨.commit, heq ▸ h.tip⟩
  · exact ⟨kind, h.links parent hparent oid kind hlink⟩

end Stream

variable {stream : Stream} {root : String}

/-! ### What the spool records -/

/-- The directory of an object as it was entered. -/
def Enters (stream : Stream) (oid : String) (node : Node) : Prop :=
  stream.Stores oid ⟨node.kind, node.payload⟩ ∧ RefsIn stream.width node.kind node.payload node.edges

/-- The spool has the directories of the opened objects, with the states and the markers of these lists. -/
def Recorded (stream : Stream) (opened closed : List String) (marks : Marker → List String) (spool : Spool) : Prop :=
  ∀ oid, (oid ∉ opened → spool oid = none) ∧ (oid ∈ opened → ∃ node, spool oid = some node ∧
    Enters stream oid node ∧ node.state = (if oid ∈ closed then .left else .entered) ∧
    ∀ marker, node.marked marker = decide (oid ∈ marks marker))

theorem Stream.HasType.kind_eq {oid : String} {kind : RawObjectType} {node : Node} (h : stream.HasType oid kind)
    (hnode : Enters stream oid node) : node.kind = kind := by
  obtain ⟨-, refs, bytes, hstores, -⟩ := h
  cases hnode.1.unique hstores
  rfl

/-- The edges of a directory are the object's links. -/
theorem Enters.edges_eq {oid : String} {node : Node} (h : Enters stream oid node) :
    node.edges.map (·.1) = stream.targets oid ∧ ∀ edge ∈ node.edges, stream.Links oid edge := by
  have hrefs : stream.References oid node.kind node.edges := ⟨node.payload, h⟩
  exact ⟨hrefs.targets_eq.symm, fun edge hedge => ⟨node.kind, node.edges, hrefs, hedge⟩⟩

/-- An object with the required type can be entered. -/
theorem enterNode_of_hasType {frame : Frame} (h : stream.HasType frame.oid frame.kind) :
    ∃ node, enterNode stream frame = .ok node ∧ Enters stream frame.oid node ∧ node.state = .entered ∧
      ∀ marker, node.marked marker = false := by
  obtain ⟨hvisible, refs, bytes, hstores, hrefs⟩ := h
  refine ⟨{ state := .entered, kind := frame.kind, payload := bytes, edges := refs, marked := fun _ => false }, ?_,
    ⟨hstores, hrefs⟩, rfl, fun _ => rfl⟩
  unfold enterNode
  rw [if_neg (by simpa using hvisible), Stream.readVerifiedRaw_eq_some.mpr hstores]
  simp [bind, Except.bind, Stream.edgesOf_eq_ok.mpr hrefs]

/-- A frame whose object is below the tip and has the type that the frame requires. -/
def Fits (stream : Stream) (root : String) (frame : Frame) : Prop :=
  stream.Reaches root frame.oid ∧ stream.HasType frame.oid frame.kind

theorem Stream.Sound.fits_edges (h : stream.Sound root) {oid : String} {node : Node} (hreach : stream.Reaches root oid)
    (hnode : Enters stream oid node) : ∀ frame ∈ edgeFrames node.edges, Fits stream root frame := by
  intro frame hframe
  obtain ⟨edge, hedge, rfl⟩ := mem_map.mp hframe
  have hlink : stream.Links oid (edge.1, edge.2) := hnode.edges_eq.2 edge (mem_reverse.mp hedge)
  exact ⟨hreach.tail ⟨edge.2, hlink⟩, h.links oid hreach edge.1 edge.2 hlink⟩

/-- A frame as the library has it. -/
def Frame.erase (frame : Frame) : String × Bool := (frame.oid, frame.leave)

theorem erase_edgeFrames {oid : String} {node : Node} (h : Enters stream oid node) :
    (edgeFrames node.edges).map Frame.erase = (stream.targets oid).reverse.map fun target => (target, false) := by
  rw [← h.edges_eq.1, ← map_reverse]
  simp [edgeFrames, Frame.erase]

theorem oid_edgeFrames {oid : String} {node : Node} (h : Enters stream oid node) :
    (edgeFrames node.edges).map Frame.oid = (stream.targets oid).reverse := by
  rw [← h.edges_eq.1, ← map_reverse]
  simp [edgeFrames]

/-! ### The walk -/

section Visit

variable {opened closed : List String} {marks : Marker → List String} {spool : Spool} {frame : Frame}

/-- A new directory. -/
theorem Recorded.enter (hspool : Recorded stream opened closed (fun _ => []) spool) {oid : String} {node : Node}
    (hclosed : oid ∉ closed) (henters : Enters stream oid node) (hstate : node.state = .entered)
    (hmarked : ∀ marker, node.marked marker = false) :
    Recorded stream (opened ++ [oid]) closed (fun _ => []) (Function.update spool oid (some node)) := by
  intro other
  by_cases heq : other = oid
  · subst heq
    refine ⟨by simp, fun _ => ⟨node, by simp, henters, by simp [hclosed, hstate], by simpa using hmarked⟩⟩
  · simpa [heq] using hspool other

variable (hspool : Recorded stream opened closed marks spool)
include hspool

theorem visit_of_new (hopened : frame.oid ∉ opened) :
    spool.visit frame = if frame.leave then .error integrity else .ok none := by
  unfold Spool.visit
  rw [(hspool frame.oid).1 hopened]

variable (htype : stream.HasType frame.oid frame.kind)
include htype

theorem visit_of_left (hopened : frame.oid ∈ opened) (hleft : frame.oid ∈ closed) :
    spool.visit frame = .ok (some spool) := by
  obtain ⟨node, hnode, henters, hstate, -⟩ := (hspool frame.oid).2 hopened
  have hkind : node.kind = frame.kind := htype.kind_eq henters
  rw [if_pos hleft] at hstate
  unfold Spool.visit
  simp [hnode, hkind, hstate]

/-- The leave frame of an entered object. -/
theorem visit_of_leave (hopened : frame.oid ∈ opened) (hleft : frame.oid ∉ closed)
    (hleave : frame.leave = true) :
    ∃ spool', spool.visit frame = .ok (some spool') ∧ Recorded stream opened (frame.oid :: closed) marks spool' := by
  obtain ⟨node, hnode, henters, hstate, hmarked⟩ := (hspool frame.oid).2 hopened
  have hkind : node.kind = frame.kind := htype.kind_eq henters
  rw [if_neg hleft] at hstate
  refine ⟨Function.update spool frame.oid (some { node with state := .left }), ?_, ?_⟩
  · unfold Spool.visit
    simp [hnode, hkind, hstate, hleave]
  · intro oid
    by_cases heq : oid = frame.oid
    · subst heq
      refine ⟨absurd hopened, fun _ => ⟨{ node with state := .left }, ?_, henters, ?_, hmarked⟩⟩
      · simp
      · simp
    · simpa [heq] using hspool oid

theorem visit_of_entered (hopened : frame.oid ∈ opened) (hleft : frame.oid ∉ closed)
    (hleave : frame.leave = false) : spool.visit frame = .error integrity := by
  obtain ⟨node, hnode, henters, hstate, -⟩ := (hspool frame.oid).2 hopened
  have hkind : node.kind = frame.kind := htype.kind_eq henters
  rw [if_neg hleft] at hstate
  unfold Spool.visit
  simp [hnode, hkind, hstate, hleave]

end Visit

/-- The result of the walk, as the library's walk determines it. -/
def Matches (stream : Stream) : Outcome String → Except TracesError Spool → Prop
  | .exhausted, _ => True
  | .cycle, result => result = .error integrity
  | .done opened closed, result => ∃ spool, result = .ok spool ∧ Recorded stream opened closed (fun _ => []) spool

/-- **The walk over frames that fit is the library's walk.** -/
theorem walk_matches (hsound : stream.Sound root) :
    ∀ (fuel : ℕ) (stack : List Frame) (opened closed : List String) (spool : Spool),
      (∀ frame ∈ stack, Fits stream root frame) → (∀ oid ∈ closed, oid ∈ opened) →
      Recorded stream opened closed (fun _ => []) spool →
      Matches stream (DepthFirst.walk stream.targets fuel (stack.map Frame.erase) opened closed)
        (walk stream fuel stack spool)
  | fuel, [], opened, closed, spool, _, _, hspool => by
    unfold DepthFirst.walk walk
    exact ⟨spool, rfl, hspool⟩
  | 0, frame :: stack, opened, closed, spool, _, _, _ => by
    trivial
  | fuel + 1, frame :: stack, opened, closed, spool, hfits, hclosed, hspool => by
    obtain ⟨hreach, htype⟩ := hfits frame mem_cons_self
    have hrest : ∀ f ∈ stack, Fits stream root f := fun f hf => hfits f (mem_cons_of_mem _ hf)
    rw [map_cons, Frame.erase]
    unfold DepthFirst.walk walk
    by_cases hopened : frame.oid ∈ opened
    · rw [if_pos hopened]
      by_cases hleft : frame.oid ∈ closed
      · rw [visit_of_left hspool htype hopened hleft, if_neg (by simp [hleft]), if_neg (by simp [hleft])]
        exact walk_matches hsound fuel stack opened closed spool hrest hclosed hspool
      · by_cases hleave : frame.leave = true
        · obtain ⟨spool', hvisit, hspool'⟩ := visit_of_leave hspool htype hopened hleft hleave
          rw [hvisit, if_pos ⟨hleave, hleft⟩]
          apply walk_matches hsound fuel stack opened (frame.oid :: closed) spool' hrest _ hspool'
          exact forall_mem_cons.mpr ⟨hopened, hclosed⟩
        · rw [visit_of_entered hspool htype hopened hleft (by simpa using hleave), if_neg (by simp [hleave]), if_pos hleft]
          rfl
    · rw [if_neg hopened, visit_of_new hspool hopened]
      by_cases hleave : frame.leave = true
      · rw [if_pos hleave, if_pos hleave]
        rfl
      · rw [if_neg hleave, if_neg hleave]
        obtain ⟨node, hnode, henters, hstate, hmarked⟩ := enterNode_of_hasType htype
        rw [hnode]
        have hframes : (stream.targets frame.oid).reverse.map (fun target => (target, false)) ++
            (frame.oid, true) :: stack.map Frame.erase =
              (edgeFrames node.edges ++ { frame with leave := true } :: stack).map Frame.erase := by
          rw [map_append, erase_edgeFrames henters, map_cons, Frame.erase]
        rw [hframes]
        apply walk_matches hsound fuel
        · intro f hf
          obtain hf | hf := mem_append.mp hf
          · exact hsound.fits_edges hreach henters f hf
          · obtain rfl | hf := mem_cons.mp hf
            · exact ⟨hreach, htype⟩
            · exact hrest f hf
        · exact fun oid hoid => mem_append_left _ (hclosed oid hoid)
        · exact hspool.enter (fun hmem => hopened (hclosed _ hmem)) henters hstate hmarked

/-! ### Selection -/

/-- The frames written so far: the selected objects in order, with their types, and how many they are. -/
def Listed (stream : Stream) (selected : List String) (selection : Selection) : Prop :=
  selection.result.map Frame.oid = selected ∧ selection.count = selection.result.length ∧
    ∀ frame ∈ selection.result, stream.HasType frame.oid frame.kind

/-- What a collection with a marker does not enter. -/
def skips (marker : Marker) (marks : Marker → List String) (oid : String) : Bool :=
  decide (marker = .selected ∧ oid ∈ marks .excluded)

section Select

variable {closed : List String} {marks : Marker → List String} {selection : Selection} {frame : Frame}

theorem Recorded.mark {spool : Spool} (hspool : Recorded stream closed closed marks spool) {oid : String} {marker : Marker}
    (hclosed : oid ∈ closed) (hmarks : oid ∉ marks marker) :
    ∃ spool' node, spool.mark oid marker = .ok (some spool') ∧ spool' oid = some node ∧ Enters stream oid node ∧
      Recorded stream closed closed (Function.update marks marker (marks marker ++ [oid])) spool' := by
  obtain ⟨node, hnode, henters, hstate, hmarked⟩ := (hspool oid).2 hclosed
  refine ⟨Function.update spool oid (some { node with marked := Function.update node.marked marker true }),
    { node with marked := Function.update node.marked marker true }, ?_, by simp, henters, ?_⟩
  · unfold Spool.mark
    simp [hnode, hmarked, hmarks]
  · intro other
    by_cases heq : other = oid
    · subst heq
      refine ⟨absurd hclosed, fun _ =>
        ⟨{ node with marked := Function.update node.marked marker true }, by simp, henters, hstate, fun m => ?_⟩⟩
      by_cases hm : m = marker
      · subst hm
        simp
      · simp [hm, hmarked]
    · obtain ⟨hnone, hsome⟩ := hspool other
      refine ⟨fun hnot => by simpa [heq] using hnone hnot, fun hmem => ?_⟩
      obtain ⟨node', hnode', henters', hstate', hmarked'⟩ := hsome hmem
      refine ⟨node', by simpa [heq] using hnode', henters', hstate', fun m => ?_⟩
      by_cases hm : m = marker
      · subst hm
        simp [hmarked', heq]
      · simp [hm, hmarked']

theorem skips_update (marker : Marker) (marks : Marker → List String) (oids : List String) :
    skips marker (Function.update marks marker oids) = skips marker marks := by
  funext oid
  cases marker <;> simp [skips]

/-- A frame that is written to the result, if the marker is that of the wants. -/
theorem Listed.push {oids : List String} (hlisted : Listed stream (marks .selected) selection)
    (htype : stream.HasType frame.oid frame.kind) (marker : Marker) (spool : Spool)
    (hoids : oids = marks marker ++ [frame.oid]) :
    Listed stream (Function.update marks marker oids .selected)
      (if marker = .selected then
        { spool, result := selection.result ++ [frame], count := selection.count + 1 }
      else { selection with spool }) := by
  obtain ⟨hoid, hcount, htypes⟩ := hlisted
  cases marker with
  | excluded => exact ⟨by simpa using hoid, hcount, htypes⟩
  | selected =>
    refine ⟨by simp [hoid, hoids], by simp [hcount], fun f hf => ?_⟩
    obtain hf | hf := mem_append.mp hf
    · exact htypes f hf
    · exact mem_singleton.mp hf ▸ htype

/-- The objects below the tip, each as often as it is listed among the visible ones. -/
def below (stream : Stream) (closed : List String) : List String := stream.visible.filter (· ∈ closed)

theorem steps_collect (stream : Stream) (closed marked : List String) :
    1 + ahead stream.targets (below stream closed) marked ≤ stream.steps := by
  have hsub : ((below stream closed).filter (· ∉ marked)).Sublist stream.visible :=
    filter_sublist.trans filter_sublist
  have hflat : (((below stream closed).filter (· ∉ marked)).flatMap stream.targets).length ≤
      (stream.visible.flatMap stream.targets).length := (hsub.map stream.targets).flatten.length_le
  have hvisible : (stream.visible.flatMap stream.targets).length ≤
      (stream.visible.flatMap fun oid => oid :: stream.targets oid).length := by
    simp only [length_flatMap]
    exact sum_le_sum fun oid _ => by simp
  unfold ahead Stream.steps
  omega

theorem steps_walk (stream : Stream) :
    1 + ahead (fun oid => oid :: stream.targets oid) stream.visible [] ≤ stream.steps := by
  unfold ahead Stream.steps
  simp

/-- The objects that a list of texts names, among those below the tip. -/
def Named (stream : Stream) (root : String) (ids : List String) (oid : String) : Prop :=
  ∃ rawOid ∈ ids, stream.canonicalOid rawOid = .ok oid ∧ stream.Reaches root oid

theorem named_cons {rawOid : String} {ids : List String} {oid : String} :
    Named stream root (rawOid :: ids) oid ↔
      (stream.canonicalOid rawOid = .ok oid ∧ stream.Reaches root oid) ∨ Named stream root ids oid := by
  simp [Named]

variable (hclosed : ∀ oid, oid ∈ closed ↔ stream.Reaches root oid)
include hclosed

theorem selectAll_unknown (hspool : Recorded stream closed closed marks selection.spool) (fuel : ℕ) (marker : Marker) {rawOid : String}
    (ids : List String) (hunknown : ¬ stream.InClosure root rawOid) :
    selectAll stream fuel marker (rawOid :: ids) selection =
      if marker = .selected then .error (stream.refusal rawOid) else selectAll stream fuel marker ids selection := by
  rw [selectAll, Stream.refusal]
  cases hcanonical : stream.canonicalOid rawOid with
  | error e => rfl
  | ok oid =>
    have hout : oid ∉ closed := fun hmem => hunknown ⟨oid, hcanonical, (hclosed oid).mp hmem⟩
    dsimp only
    rw [(hspool oid).1 hout]

variable (hsound : stream.Sound root)
include hsound

theorem below_closed :
    ∀ a ∈ below stream closed, ∀ b ∈ stream.targets a, b ∈ below stream closed := by
  intro a ha b hb
  have hreach : stream.Reaches root a := (hclosed a).mp (by simpa using (mem_filter.mp ha).2)
  obtain ⟨kind, hlink⟩ := Stream.mem_targets.mp hb
  apply mem_filter.mpr
  refine ⟨(hsound.links a hreach b kind hlink).1, ?_⟩
  simpa using (hclosed b).mpr (hreach.tail ⟨kind, hlink⟩)

/-- **The selection over the spool is the library's collection.** -/
theorem selectClosure_matches (marker : Marker) :
    ∀ (fuel : ℕ) (stack : List Frame) (marks : Marker → List String) (selection : Selection) (oids : List String),
      (∀ frame ∈ stack, Fits stream root frame) → Recorded stream closed closed marks selection.spool →
      Listed stream (marks .selected) selection →
      gather stream.targets (skips marker marks) fuel (stack.map Frame.oid) (marks marker) = some oids →
      ∃ selection', selectClosure marker fuel stack selection = .ok selection' ∧
        Recorded stream closed closed (Function.update marks marker oids) selection'.spool ∧
        Listed stream (Function.update marks marker oids .selected) selection'
  | fuel, [], marks, selection, oids, _, hspool, hlisted, hgather => by
    unfold selectClosure
    unfold gather at hgather
    obtain rfl : marks marker = oids := by simpa using hgather
    exact ⟨selection, rfl, by simpa using hspool, by simpa using hlisted⟩
  | 0, frame :: stack, marks, selection, oids, _, _, _, hgather => by
    unfold gather at hgather
    simp at hgather
  | fuel + 1, frame :: stack, marks, selection, oids, hfits, hspool, hlisted, hgather => by
    obtain ⟨hreach, htype⟩ := hfits frame mem_cons_self
    have hrest : ∀ f ∈ stack, Fits stream root f := fun f hf => hfits f (mem_cons_of_mem _ hf)
    have hin : frame.oid ∈ closed := (hclosed frame.oid).mpr hreach
    obtain ⟨node, hnode, -, -, hmarked⟩ := (hspool frame.oid).2 hin
    rw [map_cons] at hgather
    unfold gather at hgather
    unfold selectClosure
    by_cases hskip : skips marker marks frame.oid = true
    · rw [if_pos (.inl hskip)] at hgather
      rw [if_pos (by simpa [skips, hnode, hmarked] using hskip)]
      exact selectClosure_matches marker fuel stack marks selection oids hrest hspool hlisted hgather
    · rw [if_neg (by simpa [skips, hnode, hmarked] using hskip)]
      by_cases hold : frame.oid ∈ marks marker
      · have hmark : selection.spool.mark frame.oid marker = .ok none := by
          unfold Spool.mark
          simp [hnode, hmarked, hold]
        rw [if_pos (.inr hold)] at hgather
        rw [hmark]
        exact selectClosure_matches marker fuel stack marks selection oids hrest hspool hlisted hgather
      · rw [if_neg (by simp [hskip, hold])] at hgather
        obtain ⟨spool', node', hmark, hnode', henters', hspool'⟩ := hspool.mark hin hold
        rw [hmark]
        dsimp only
        rw [hnode']
        have hstack : (stream.targets frame.oid).reverse ++ stack.map Frame.oid =
            (edgeFrames node'.edges ++ stack).map Frame.oid := by
          rw [map_append, oid_edgeFrames henters']
        have hfits' : ∀ f ∈ edgeFrames node'.edges ++ stack, Fits stream root f := by
          exact forall_mem_append.mpr ⟨hsound.fits_edges hreach henters', hrest⟩
        obtain ⟨selection', hselect, hspool'', hlisted'⟩ := selectClosure_matches marker fuel
          (edgeFrames node'.edges ++ stack) (Function.update marks marker (marks marker ++ [frame.oid]))
          (if marker = .selected then
            { spool := spool', result := selection.result ++ [frame], count := selection.count + 1 }
          else { selection with spool := spool' }) oids hfits' (by split <;> exact hspool')
          (hlisted.push htype marker spool' rfl)
          (by rw [skips_update, ← hstack]; simpa using hgather)
        rw [Function.update_idem] at hspool'' hlisted'
        exact ⟨selection', hselect, hspool'', hlisted'⟩

theorem selectAll_known (hspool : Recorded stream closed closed marks selection.spool) (fuel : ℕ) (marker : Marker) {rawOid oid : String}
    (ids : List String) (hcanonical : stream.canonicalOid rawOid = .ok oid) (hreach : stream.Reaches root oid) :
    ∃ kind, stream.HasType oid kind ∧ ∀ selection',
      selectClosure marker fuel [{ oid, kind, leave := false }] selection = .ok selection' →
        selectAll stream fuel marker (rawOid :: ids) selection = selectAll stream fuel marker ids selection' := by
  obtain ⟨kind, htype⟩ := hsound.hasType hreach
  have hin : oid ∈ closed := (hclosed oid).mpr hreach
  obtain ⟨node, hnode, henters, hstate, -⟩ := (hspool oid).2 hin
  rw [if_pos hin] at hstate
  refine ⟨kind, htype, fun selection' hselect => ?_⟩
  rw [← htype.kind_eq henters] at hselect
  obtain ⟨state, kind', payload, edges, marked⟩ := node
  obtain rfl : state = .left := hstate
  rw [selectAll, hcanonical]
  simp only [hnode, hselect]

/-- **The loop over a list of ids** collects what the named objects lead to. It fails only for a want
that is not below the tip. -/
theorem selectAll_cases (marker : Marker) {skip : String → Bool} (hskip : ∀ a b, skip a = true → b ∈ stream.targets a → skip b = true) :
    ∀ (ids : List String) (marks : Marker → List String) (selection : Selection) (roots : String → Prop),
      skips marker marks = skip → Recorded stream closed closed marks selection.spool →
      Listed stream (marks .selected) selection → Covers stream.targets skip roots (marks marker) →
      (marker = .selected ∧ ∃ want ∈ ids, ¬ stream.InClosure root want ∧
        selectAll stream stream.steps marker ids selection = .error (stream.refusal want)) ∨
      ∃ selection' oids, selectAll stream stream.steps marker ids selection = .ok selection' ∧
        Recorded stream closed closed (Function.update marks marker oids) selection'.spool ∧
        Listed stream (Function.update marks marker oids .selected) selection' ∧
        Covers stream.targets skip (fun oid => roots oid ∨ Named stream root ids oid) oids ∧
        (marker = .selected → ∀ rawOid ∈ ids, stream.InClosure root rawOid)
  | [], marks, selection, roots, _, hspool, hlisted, hcovers => by
    refine .inr ⟨selection, marks marker, rfl, by simpa using hspool, by simpa using hlisted, ?_, by simp⟩
    simpa [Named] using hcovers
  | rawOid :: ids, marks, selection, roots, hskips, hspool, hlisted, hcovers => by
    by_cases hknown : stream.InClosure root rawOid
    · obtain ⟨oid, hcanonical, hreach⟩ := hknown
      obtain ⟨kind, htype, hselectAll⟩ :=
        selectAll_known hclosed hsound hspool stream.steps marker ids hcanonical hreach
      have hall : oid ∈ below stream closed := by simpa [below] using ⟨htype.1, (hclosed oid).mpr hreach⟩
      obtain ⟨oids, hgather, hcovers'⟩ := gather_covers (below stream closed) (below_closed hclosed hsound) hskip hcovers
        hall (steps_collect stream closed (marks marker))
      obtain ⟨selection', hselect, hspool', hlisted'⟩ := selectClosure_matches hclosed hsound marker stream.steps
        [{ oid, kind, leave := false }] marks selection oids (by simpa using ⟨hreach, htype⟩) hspool hlisted
        (by rw [hskips]; exact hgather)
      rw [hselectAll selection' hselect]
      obtain ⟨hmarker, want, hwant, hrefused⟩ | ⟨selection'', oids', hok, hspool'', hlisted'', hcovers'', hwants⟩ :=
        selectAll_cases marker hskip ids (Function.update marks marker oids) selection'
          (fun r => roots r ∨ r = oid) (by rw [skips_update, hskips]) hspool' hlisted' (by simpa using hcovers')
      · exact .inl ⟨hmarker, want, mem_cons_of_mem _ hwant, hrefused⟩
      · rw [Function.update_idem] at hspool'' hlisted''
        refine .inr ⟨selection'', oids', hok, hspool'', hlisted'', ?_, fun hmarker want hwant => ?_⟩
        · apply hcovers''.of_iff
          intro r
          rw [named_cons, or_assoc]
          refine or_congr_right (or_congr_left ⟨fun heq => heq ▸ ⟨hcanonical, hreach⟩, fun h => ?_⟩)
          rw [hcanonical] at h
          exact (Except.ok.inj h.1).symm
        · obtain rfl | hwant := mem_cons.mp hwant
          · exact ⟨oid, hcanonical, hreach⟩
          · exact hwants hmarker want hwant
    · have hunknown := selectAll_unknown hclosed hspool stream.steps marker ids hknown
      by_cases hmarker : marker = .selected
      · rw [if_pos hmarker] at hunknown
        exact .inl ⟨hmarker, rawOid, mem_cons_self, hknown, hunknown⟩
      · rw [hunknown, if_neg hmarker]
        obtain ⟨hselected, -⟩ | ⟨selection', oids, hok, hspool', hlisted', hcovers', -⟩ :=
          selectAll_cases marker hskip ids marks selection roots hskips hspool hlisted hcovers
        · exact absurd hselected hmarker
        · refine .inr ⟨selection', oids, hok, hspool', hlisted', ?_, fun h => absurd h hmarker⟩
          apply hcovers'.of_iff
          intro r
          rw [named_cons]
          refine or_congr_right ⟨.inr, fun h => h.resolve_left fun hnamed => hknown ⟨r, hnamed⟩⟩

end Select

/-! ### The response -/

/-- The frames of a result whose objects have directories are sent, each with the object's bytes. -/
theorem drain_cases {spool : Spool} (count : ℕ) :
    ∀ (result : List Frame), (∀ frame ∈ result, stream.HasType frame.oid frame.kind ∧
        ∃ node, spool frame.oid = some node ∧ Enters stream frame.oid node) →
      ∃ objects, TraceFetchStream.drain (result.length + 1) { result, spool, count, remaining := result.length } =
          .ok objects ∧ objects.map (·.oid) = result.map Frame.oid ∧
        ∀ object ∈ objects, stream.Stores object.oid ⟨object.objectType, object.payload⟩
  | [], _ => ⟨[], rfl, rfl, by simp⟩
  | frame :: result, hframes => by
    obtain ⟨htype, node, hnode, henters⟩ := hframes frame mem_cons_self
    obtain ⟨objects, hdrain, hoids, hraw⟩ := drain_cases count result fun f hf =>
      hframes f (mem_cons_of_mem _ hf)
    have hframe : node.kind = frame.kind := htype.kind_eq henters
    have hnext : TraceFetchStream.next { result := frame :: result, spool, count, remaining := (frame :: result).length } =
        .ok (some ({ oid := frame.oid, objectType := frame.kind, payload := node.payload },
          { result, spool, count, remaining := result.length })) := by
      unfold TraceFetchStream.next
      rw [if_neg (by simp)]
      dsimp only
      rw [hnode]
      dsimp only
      rw [if_neg (Nat.not_lt.mpr henters.1.size)]
      rfl
    refine ⟨{ oid := frame.oid, objectType := frame.kind, payload := node.payload } :: objects, ?_, ?_, ?_⟩
    · rw [TraceFetchStream.drain, hnext]
      dsimp only
      rw [length_cons, hdrain]
    · simp [hoids]
    · intro object hobject
      obtain rfl | hobject := mem_cons.mp hobject
      · rw [← hframe]
        exact henters.1
      · exact hraw object hobject

/-- A walk without a cycle leaves the closure of the tip in the spool. -/
theorem walk_cases (hsound : stream.Sound root) :
    (stream.HasCycle root ∧
      walk stream stream.steps [{ oid := root, kind := .commit, leave := false }] (fun _ => none) = .error integrity) ∨
    (¬ stream.HasCycle root ∧ ∃ closed spool,
      walk stream stream.steps [{ oid := root, kind := .commit, leave := false }] (fun _ => none) = .ok spool ∧
      (∀ oid, oid ∈ closed ↔ stream.Reaches root oid) ∧ Recorded stream closed closed (fun _ => []) spool) := by
  have hall : ∀ oid, Relation.ReflTransGen (Next stream.targets) root oid → oid ∈ stream.visible := by
    intro oid hreach
    rw [← Stream.reaches_eq] at hreach
    obtain ⟨kind, htype⟩ := hsound.hasType hreach
    exact htype.1
  have hmatch := walk_matches hsound stream.steps [{ oid := root, kind := .commit, leave := false }] [] []
    (fun _ => none) (by simpa using ⟨.refl, hsound.tip⟩) (by simp) (fun oid => by simp)
  simp only [map_cons, map_nil, Frame.erase] at hmatch
  obtain ⟨hwalk, oid, hreach, hcycle⟩ | ⟨opened, closed, hwalk, hmem, hsame, hacyclic⟩ :=
    DepthFirst.walk_root stream.visible hall (steps_walk stream)
  · rw [hwalk] at hmatch
    rw [← Stream.reaches_eq] at hreach
    rw [Stream.next_eq] at hcycle
    exact .inl ⟨⟨oid, hreach, hcycle⟩, hmatch⟩
  · rw [hwalk] at hmatch
    rw [← Stream.reaches_eq] at hmem hacyclic
    rw [Stream.next_eq] at hacyclic
    obtain ⟨spool, hok, hspool⟩ := hmatch
    refine .inr ⟨fun hcycle => ?_, closed, spool, hok, hmem, fun oid => ?_⟩
    · obtain ⟨oid, hreach, hcycle⟩ := hcycle
      exact hacyclic oid hreach hcycle
    · simpa [hsame oid] using hspool oid

/-- The objects that a fetch sends. -/
def Missing (stream : Stream) (root : String) (wants haves : List String) (oid : String) : Prop :=
  (∃ want ∈ wants, ∃ id, stream.canonicalOid want = .ok id ∧ stream.Reaches id oid) ∧
    ¬ ∃ id, Named stream root haves id ∧ stream.Reaches id oid

/-- A fetch over a graph without a cycle. -/
theorem fetch_of_acyclic {tip : String} {wants haves : List String} (htip : stream.tipOid = some tip)
    (hroot : stream.canonicalOid tip = .ok root) (hsound : stream.Sound root) (hwants : wants ≠ [])
    (hacyclic : ¬ stream.HasCycle root) :
    (∃ want ∈ wants, ¬ stream.InClosure root want ∧ fetchIntoSpool stream wants haves = .error (stream.refusal want)) ∨
    ∃ selection closed marks,
      fetchIntoSpool stream wants haves = .ok ⟨selection.result, selection.spool, selection.count, selection.count⟩ ∧
      Recorded stream closed closed marks selection.spool ∧ (∀ oid, oid ∈ closed ↔ stream.Reaches root oid) ∧
      Listed stream (marks .selected) selection ∧ (marks .selected).Nodup ∧
      (∀ oid, oid ∈ marks .selected ↔ Missing stream root wants haves oid) ∧
      ∀ want ∈ wants, stream.InClosure root want := by
  obtain ⟨hcycle, -⟩ | ⟨-, closed, spool, hwalk, hclosed, hspool⟩ := walk_cases hsound
  · exact absurd hcycle hacyclic
  -- first the haves, with nothing to skip
  have hnone : ∀ a b, (fun _ => false) a = true → b ∈ stream.targets a → (fun _ : String => false) b = true := by
    simp
  obtain ⟨hmarker, -⟩ | ⟨selection, excluded, hhaves, hspool₁, hlisted₁, hcovers₁, -⟩ :=
    selectAll_cases hclosed hsound .excluded hnone haves (fun _ => []) { spool, result := [], count := 0 }
      (fun _ => False) (by funext oid; simp [skips]) hspool ⟨rfl, rfl, by simp⟩ Covers.nil
  · simp at hmarker
  have hexcluded : ∀ oid, oid ∈ excluded ↔ ∃ id, Named stream root haves id ∧ stream.Reaches id oid := by
    intro oid
    rw [hcovers₁.mem_iff, Stream.reaches_eq]
    simp
  -- then the wants, without what the haves lead to
  have hskip : ∀ a b, decide (a ∈ excluded) = true → b ∈ stream.targets a → decide (b ∈ excluded) = true := by
    intro a b ha hb
    rw [decide_eq_true_eq, hexcluded] at ha ⊢
    obtain ⟨id, hid, hreach⟩ := ha
    exact ⟨id, hid, hreach.tail (Stream.mem_targets.mp hb)⟩
  have hfetch : fetchIntoSpool stream wants haves =
      (selectAll stream stream.steps .selected wants selection).map fun selection =>
        ⟨selection.result, selection.spool, selection.count, selection.count⟩ := by
    unfold fetchIntoSpool
    rw [if_neg hwants]
    simp only [htip, hroot, hwalk, hhaves, bind, Except.bind, Option.elim]
    cases selectAll stream stream.steps .selected wants selection <;> rfl
  rw [hfetch]
  obtain ⟨-, want, hwant, hunknown, herror⟩ | ⟨selection', selected, hok, hspool₂, hlisted₂, hcovers₂, hinside⟩ :=
    selectAll_cases hclosed hsound .selected hskip wants (Function.update (fun _ => []) .excluded excluded) selection
      (fun _ => False) (by funext oid; simp [skips]) hspool₁ hlisted₁ Covers.nil
  · exact .inl ⟨want, hwant, hunknown, by rw [herror]; rfl⟩
  · refine .inr ⟨selection', closed, _, by rw [hok]; rfl, hspool₂, hclosed, hlisted₂, by simpa using hcovers₂.nodup, ?_,
      hinside rfl⟩
    intro oid
    rw [Function.update_self, hcovers₂.mem_iff, decide_eq_false_iff_not, hexcluded, ← Stream.reaches_eq, and_comm, Missing]
    refine and_congr_left fun _ => ⟨fun h => ?_, fun h => ?_⟩
    · obtain ⟨named, hnamed, hreach⟩ := h
      obtain ⟨want, hwant, hcanonical, -⟩ := hnamed.resolve_left not_false
      exact ⟨want, hwant, named, hcanonical, hreach⟩
    · obtain ⟨want, hwant, id, hcanonical, hreach⟩ := h
      exact ⟨id, .inr ⟨want, hwant, hcanonical, (hinside rfl want hwant).reaches hcanonical⟩, hreach⟩

/-- **A fetch sends exactly the missing closure.** Where all objects below the tip are stored well formed with the
types their references require, a fetch fails the integrity check if a cycle is below the tip. Otherwise it is
rejected exactly if some want is not below the tip, with the error of such a want. An accepted fetch sends each
object in the closure of the wants that is not in the closure of the haves below the tip, once and nothing else, as
many as it announced. -/
theorem fetch_sends_missing_closure (stream : Stream) (tip root : String) (wants haves : List String)
    (htip : stream.tipOid = some tip) (hroot : stream.canonicalOid tip = .ok root) (hsound : stream.Sound root)
    (hwants : wants ≠ []) :
    (stream.HasCycle root → fetchIntoSpool stream wants haves = .error integrity) ∧
    (¬ stream.HasCycle root →
      ((∃ e, fetchIntoSpool stream wants haves = .error e) ↔ ∃ want ∈ wants, ¬ stream.InClosure root want) ∧
      ∀ e, fetchIntoSpool stream wants haves = .error e →
        ∃ want ∈ wants, ¬ stream.InClosure root want ∧ e = stream.refusal want) ∧
    ∀ response, fetchIntoSpool stream wants haves = .ok response →
      ∃ objects, response.objects = .ok objects ∧ response.count = objects.length ∧
        (objects.map (·.oid)).Nodup ∧ (∀ oid, oid ∈ objects.map (·.oid) ↔ Missing stream root wants haves oid) ∧
        ∀ object ∈ objects, stream.Stores object.oid ⟨object.objectType, object.payload⟩ := by
  have hrejected : stream.HasCycle root → fetchIntoSpool stream wants haves = .error integrity := by
    intro hcycle
    obtain ⟨-, hwalk⟩ | ⟨hacyclic, -⟩ := walk_cases hsound
    · unfold fetchIntoSpool
      rw [if_neg hwants]
      simp [htip, hroot, hwalk, bind, Except.bind]
    · exact absurd hcycle hacyclic
  refine ⟨hrejected, fun hacyclic => ?_, fun response hresponse => ?_⟩
  · obtain ⟨want, hwant, hunknown, herror⟩ | ⟨selection, closed, marks, hok, -, -, -, -, -, hinside⟩ :=
      fetch_of_acyclic htip hroot hsound hwants hacyclic
    · refine ⟨⟨fun _ => ⟨want, hwant, hunknown⟩, fun _ => ⟨_, herror⟩⟩, fun e he => ⟨want, hwant, hunknown, ?_⟩⟩
      exact Except.error.inj (he.symm.trans herror)
    · rw [hok]
      refine ⟨⟨fun h => by simp at h, fun h => ?_⟩, fun e he => by cases he⟩
      obtain ⟨want, hwant, hout⟩ := h
      exact absurd (hinside want hwant) hout
  · have hacyclic : ¬ stream.HasCycle root := fun hcycle => by simp [hrejected hcycle] at hresponse
    obtain ⟨want, -, -, herror⟩ | ⟨selection, closed, marks, hok, hspool, hclosed, hlisted, hnodup, hmem, hinside⟩ :=
      fetch_of_acyclic htip hroot hsound hwants hacyclic
    · rw [hresponse] at herror
      cases herror
    · rw [hresponse, Except.ok.injEq] at hok
      subst hok
      obtain ⟨hoids, hcount, htypes⟩ := hlisted
      have hframes : ∀ frame ∈ selection.result, stream.HasType frame.oid frame.kind ∧
          ∃ node, selection.spool frame.oid = some node ∧ Enters stream frame.oid node := by
        intro frame hframe
        have hin : frame.oid ∈ closed := by
          have hselected : frame.oid ∈ marks .selected := hoids ▸ mem_map_of_mem hframe
          obtain ⟨⟨want, hwant, id, hcanonical, hreach⟩, -⟩ := (hmem frame.oid).mp hselected
          exact (hclosed frame.oid).mpr (((hinside want hwant).reaches hcanonical).trans hreach)
        obtain ⟨node, hnode, henters, -⟩ := (hspool frame.oid).2 hin
        exact ⟨htypes frame hframe, node, hnode, henters⟩
      obtain ⟨objects, hdrain, hsent, hraw⟩ := drain_cases selection.count selection.result hframes
      have hsent' : objects.map (·.oid) = marks .selected := by rw [hsent, hoids]
      refine ⟨objects, ?_, ?_, by rwa [hsent'], by rwa [hsent'], hraw⟩
      · unfold TraceFetchStream.objects
        rw [hcount] at hdrain ⊢
        exact hdrain
      · rw [hcount, ← length_map Frame.oid, hoids, ← hsent', length_map]

/-- The small history, all of it visible. -/
def sampleStream : Stream where
  width := 40
  tipOid := some (sampleOid 1)
  visible := [1, 2, 3, 4, 5, 7].map sampleOid
  stored := sampleContent
  verified := fun oid raw => sampleContent oid = some raw

theorem hasType_of_enterNode {frame : Frame} (h : (enterNode stream frame).isOk = true) :
    stream.HasType frame.oid frame.kind := by
  cases hnode : enterNode stream frame with
  | error e => simp [hnode, Except.isOk, Except.toBool] at h
  | ok node =>
    obtain ⟨hvisible, hnode⟩ := Fallible.guard_eq_ok.mp hnode
    obtain ⟨_ | ⟨kind, bytes⟩, hraw, hnode⟩ := Fallible.bind_eq_ok.mp hnode
    · cases hnode
    · obtain ⟨hkind, hnode⟩ := Fallible.guard_eq_ok.mp hnode
      obtain ⟨edges, hedges, -⟩ := Fallible.bind_eq_ok.mp hnode
      obtain rfl : kind = frame.kind := not_not.mp hkind
      exact ⟨not_not.mp hvisible, edges, bytes, Stream.readVerifiedRaw_eq_some.mp hraw, Stream.edgesOf_eq_ok.mp hedges⟩

theorem sampleStream_sound : sampleStream.Sound (sampleOid 1) := by
  have htip : sampleStream.HasType (sampleOid 1) .commit :=
    @hasType_of_enterNode _ ⟨sampleOid 1, .commit, false⟩ (by decide +kernel)
  -- each visible object links to objects that can be entered as the links require
  have hcheck : ∀ oid ∈ sampleStream.visible, ∀ kind ∈ [RawObjectType.commit, .tree, .blob, .tag],
      ∀ node ∈ (enterNode sampleStream ⟨oid, kind, false⟩).toOption,
        ∀ edge ∈ node.edges, (enterNode sampleStream ⟨edge.1, edge.2, false⟩).isOk = true := by decide +kernel
  have hlinks : ∀ oid kind, sampleStream.HasType oid kind → ∀ edge, sampleStream.Links oid edge →
      sampleStream.HasType edge.1 edge.2 := by
    rintro oid kind htype edge ⟨kind', refs, ⟨bytes, hstores, hrefs⟩, hmem⟩
    obtain ⟨node, hnode, ⟨hstores', hrefs'⟩, -⟩ := @enterNode_of_hasType _ ⟨oid, kind, false⟩ htype
    have hedges := hcheck oid htype.1 kind (by cases kind <;> simp) node (by rw [hnode]; rfl)
    cases hstores.unique hstores'
    rw [hrefs.unique hrefs'] at hmem
    exact @hasType_of_enterNode _ ⟨edge.1, edge.2, false⟩ (hedges edge hmem)
  have htyped : ∀ oid, sampleStream.Reaches (sampleOid 1) oid → ∃ kind, sampleStream.HasType oid kind := by
    intro oid hreach
    induction hreach with
    | refl => exact ⟨_, htip⟩
    | tail _ hlink ih =>
      obtain ⟨kind, htype⟩ := ih
      obtain ⟨kind', hlink⟩ := hlink
      exact ⟨kind', hlinks _ kind htype _ hlink⟩
  refine ⟨htip, fun oid hreach target kind hlink => ?_⟩
  obtain ⟨kind', htype⟩ := htyped oid hreach
  exact hlinks oid kind' htype _ hlink

/-- A fetch of the tip by a client that has the second commit, asked for twice and with an unknown have. -/
theorem fetch_sample :
    ∃ response objects, fetchIntoSpool sampleStream [sampleOid 1, sampleOid 1] [sampleOid 7, "unknown"] = .ok response ∧
      response.objects = .ok objects ∧ objects.map (·.oid) = [1, 2, 4].map sampleOid ∧
      ∀ oid, oid ∈ objects.map (·.oid) ↔
        Missing sampleStream (sampleOid 1) [sampleOid 1, sampleOid 1] [sampleOid 7, "unknown"] oid := by
  have hids : ((fetchIntoSpool sampleStream [sampleOid 1, sampleOid 1] [sampleOid 7, "unknown"]).bind
      TraceFetchStream.objects).map (List.map (·.oid)) = .ok ([1, 2, 4].map sampleOid) := by decide +kernel
  obtain ⟨-, -, hsent⟩ := fetch_sends_missing_closure sampleStream (sampleOid 1) (sampleOid 1) [sampleOid 1, sampleOid 1]
    [sampleOid 7, "unknown"] rfl (by decide +kernel) sampleStream_sound (by simp)
  cases hfetch : fetchIntoSpool sampleStream [sampleOid 1, sampleOid 1] [sampleOid 7, "unknown"] with
  | error e =>
    rw [hfetch] at hids
    cases hids
  | ok response =>
    obtain ⟨objects, hobjects, -, -, hmem, -⟩ := hsent response hfetch
    rw [hfetch] at hids
    refine ⟨response, objects, rfl, hobjects, ?_, hmem⟩
    simpa [Except.bind, Except.map, hobjects] using hids

end Traces
end Mega
