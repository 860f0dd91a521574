/-
# The links of raw commits and trees

`verified_commit_links` and `verified_tree_entries` of `ceres/traces/ingest.rs`
read the bytes of a Git object and refuse what is not well formed. A commit has
a block of header lines up to the first empty line: its tree first, then its
parents, and an author and a committer once each. A tree is a row of entries,
each a mode, a name and the bytes of an id, whose names are in Git's order.

`CommitBytes`, `TreeBytes` and `TreeOrder` say what well-formed bytes are: how they
are made up of lines or entries, and what holds of these. `RefsIn` are the objects
that well-formed bytes refer to.

Key definitions: `verifiedCommitLinks`, `verifiedTreeEntries`, `CommitBytes`, `TreeBytes`, `RefsIn`.
Key theorems: `verifiedCommitLinks_eq_some`, `verifiedTreeEntries_eq_some`, `RefsIn.unique`.
-/
import Mega.Lib.Lines
import Mega.Lib.Splits
import Mega.Traces.Objects

namespace Mega
namespace Traces

open List Lines

def ascii (text : String) : List UInt8 := text.toList.map fun c => UInt8.ofNat c.toNat

def isHexByte (byte : UInt8) : Bool := isAsciiHexdigit (Char.ofNat byte.toNat)

/-- The text of ASCII bytes, in lower case. -/
def lowerText (bytes : List UInt8) : String :=
  toAsciiLowercase (String.ofList (bytes.map fun byte => Char.ofNat byte.toNat))

/-- Where the first empty line starts. -/
def headerEnd : List UInt8 → Option ℕ
  | a :: b :: rest => if a = 10 ∧ b = 10 then some 0 else (headerEnd (b :: rest)).map (· + 1)
  | _ => none

/-! ### Commits -/

def treeLabel : List UInt8 := ascii "tree"
def parentLabel : List UInt8 := ascii "parent"
def authorLabel : List UInt8 := ascii "author"
def committerLabel : List UInt8 := ascii "committer"

/-- What the loop over the header lines has found. -/
structure CommitScan where
  tree : Option String
  parents : List String
  author : Bool
  committer : Bool
  pastParents : Bool

def CommitScan.start : CommitScan := ⟨none, [], false, false, false⟩

/-- A line whose label is `tree` or `parent`. -/
def scanLink (width : ℕ) (scan : CommitScan) (label value : List UInt8) : Option CommitScan :=
  if value.length ≠ width ∨ ¬ value.all isHexByte then none
  else if label = treeLabel then
    if scan.tree.isSome then none else some { scan with tree := some (lowerText value) }
  else some { scan with parents := scan.parents ++ [lowerText value] }

/-- A line whose label is `author` or `committer`. -/
def scanPerson (scan : CommitScan) (label value : List UInt8) : Option CommitScan :=
  if label = authorLabel then
    if scan.author ∨ value = [] then none else some { scan with author := true }
  else if label = committerLabel then
    if scan.committer ∨ value = [] then none else some { scan with committer := true }
  else some scan

/-- Header line number `line.2`. -/
def scanLine (width : ℕ) (scan : CommitScan) (line : List UInt8 × ℕ) : Option CommitScan :=
  match cut 32 line.1 with
  | none => none
  | some (label, value) =>
    if line.2 = 0 ∧ label ≠ treeLabel then none
    else if label = parentLabel ∧ scan.pastParents then none
    else if label = treeLabel ∨ label = parentLabel then scanLink width scan label value
    else scanPerson { scan with pastParents := true } label value

def verifiedCommitLinks (width : ℕ) (payload : List UInt8) : Option CommitLinks := do
  let stop ← headerEnd payload
  let scan ← ((payload.take stop).splitOn 10).zipIdx.foldlM (scanLine width) CommitScan.start
  if ¬ scan.author ∨ ¬ scan.committer then none
  else
    let tree ← scan.tree
    some ⟨tree, scan.parents⟩

/-! ### Trees -/

def treeMode (mode : List UInt8) : Option RawTreeMode :=
  if mode = ascii "40000" ∨ mode = ascii "040000" then some .tree
  else if mode = ascii "100644" ∨ mode = ascii "100755" ∨ mode = ascii "120000" then some .blob
  else if mode = ascii "160000" then some .gitlink
  else none

/-- Names are compared as if the name of a tree ended with a slash and any other with a zero byte. -/
def RawTreeEntry.sortKey (entry : RawTreeEntry) : List UInt8 :=
  entry.name ++ [if entry.mode = .tree then 47 else 0]

/-- A name that an entry may have. -/
def entryName (name : List UInt8) : Bool := name ≠ [] ∧ name ≠ [46] ∧ name ≠ [46, 46] ∧ 47 ∉ name

/-- The loop over the entries. Each takes at least one byte, so there are no more rounds than bytes. -/
def scanTree (hashBytes : ℕ) : ℕ → List UInt8 → List RawTreeEntry → Option (List RawTreeEntry)
  | 0, rest, entries => if rest = [] then some entries else none
  | fuel + 1, rest, entries =>
    if rest = [] then some entries
    else
      match cut 0 rest with
      | none => none
      | some (header, after) =>
        match cut 32 header with
        | none => none
        | some (modeText, name) =>
          if after.length < hashBytes then none
          else if ¬ entryName name ∨ name ∈ entries.map RawTreeEntry.name then none
          else
            match treeMode modeText with
            | none => none
            | some mode =>
              let entry : RawTreeEntry := ⟨mode, name, hexEncode (after.take hashBytes)⟩
              if entries.getLast?.any fun previous => ¬ previous.sortKey < entry.sortKey then none
              else scanTree hashBytes fuel (after.drop hashBytes) (entries ++ [entry])

def verifiedTreeEntries (hashBytes : ℕ) (payload : List UInt8) : Option (List RawTreeEntry) :=
  scanTree hashBytes payload.length payload []

/-! ### Well-formed commits -/

/-- A header line: a label, a blank and a value. -/
def fieldLine (field : List UInt8 × List UInt8) : List UInt8 := field.1 ++ 32 :: field.2

def parentLine (id : List UInt8) : List UInt8 := fieldLine (parentLabel, id)

/-- The values of the fields with a label. -/
def valuesOf (label : List UInt8) (fields : List (List UInt8 × List UInt8)) : List (List UInt8) :=
  (fields.filter (·.1 = label)).map Prod.snd

def IsId (width : ℕ) (id : List UInt8) : Prop := id.length = width ∧ id.all isHexByte = true

/-- A field other than the tree and the parents. -/
def IsOther (field : List UInt8 × List UInt8) : Prop := field.1 ≠ treeLabel ∧ field.1 ≠ parentLabel ∧ 32 ∉ field.1

/-- The header of a commit: its tree, its parents and then all other fields, with one author and one committer. -/
structure CommitHeader (width : ℕ) where
  tree : List UInt8
  parents : List (List UInt8)
  fields : List (List UInt8 × List UInt8)
  ids : ∀ id ∈ tree :: parents, IsId width id
  others : ∀ field ∈ fields, IsOther field
  lines : ∀ field ∈ fields, 10 ∉ fieldLine field
  author : ∃ value ≠ [], valuesOf authorLabel fields = [value]
  committer : ∃ value ≠ [], valuesOf committerLabel fields = [value]

/-- The bytes of a commit: its header, an empty line and a message. -/
def CommitBytes (width : ℕ) (payload : List UInt8) (links : CommitLinks) : Prop :=
  ∃ (header : CommitHeader width) (message : List UInt8),
    payload = blockText 10 (fieldLine (treeLabel, header.tree) ::
      (header.parents.map parentLine ++ header.fields.map fieldLine)) message ∧
    links = ⟨lowerText header.tree, header.parents.map lowerText⟩

/-- A flag is raised by one value at most, which is not empty. -/
def Raises (flag : Bool) (values : List (List UInt8)) (flag' : Bool) : Prop :=
  (values = [] ∧ flag' = flag) ∨ (flag = false ∧ flag' = true ∧ ∃ value ≠ [], values = [value])

theorem raises_append {flag flag' : Bool} {values more : List (List UInt8)} :
    Raises flag (values ++ more) flag' ↔ ∃ mid, Raises flag values mid ∧ Raises mid more flag' := by
  unfold Raises
  constructor
  · rintro (⟨hnil, rfl⟩ | ⟨rfl, rfl, value, hvalue, heq⟩)
    · obtain ⟨rfl, rfl⟩ := append_eq_nil_iff.mp hnil
      exact ⟨_, .inl ⟨rfl, rfl⟩, .inl ⟨rfl, rfl⟩⟩
    · rcases append_eq_singleton_iff.mp heq with ⟨rfl, rfl⟩ | ⟨rfl, rfl⟩
      · exact ⟨false, .inl ⟨rfl, rfl⟩, .inr ⟨rfl, rfl, value, hvalue, rfl⟩⟩
      · exact ⟨true, .inr ⟨rfl, rfl, value, hvalue, rfl⟩, .inl ⟨rfl, rfl⟩⟩
  · rintro ⟨mid, ⟨rfl, rfl⟩ | ⟨rfl, rfl, value, hvalue, rfl⟩, h⟩
    · exact h
    · simpa [hvalue, and_comm] using h

section Scan

variable {width : ℕ} {scan scan' : CommitScan} {line : List UInt8}

theorem scanPerson_eq_some {field : List UInt8 × List UInt8} :
    scanPerson { scan with pastParents := true } field.1 field.2 = some scan' ↔
      scan'.tree = scan.tree ∧ scan'.parents = scan.parents ∧ scan'.pastParents = true ∧
        Raises scan.author (valuesOf authorLabel [field]) scan'.author ∧
        Raises scan.committer (valuesOf committerLabel [field]) scan'.committer := by
  have hne : authorLabel ≠ committerLabel := by decide
  obtain ⟨tree, parents, author, committer, past⟩ := scan'
  unfold scanPerson Raises valuesOf
  split_ifs <;> simp_all <;> grind

/-- A line after the first is one more parent, as long as there are only parents, or another field. -/
theorem scanLine_eq_some {index : ℕ} (htree : scan.tree.isSome) : scanLine width scan (line, index + 1) = some scan' ↔
    (∃ id, line = parentLine id ∧ scan.pastParents = false ∧ IsId width id ∧
        scan' = { scan with parents := scan.parents ++ [lowerText id] }) ∨
      ∃ field, line = fieldLine field ∧ IsOther field ∧
        scanPerson { scan with pastParents := true } field.1 field.2 = some scan' := by
  constructor
  · intro h
    rw [scanLine] at h
    split at h
    · cases h
    rename_i label value hcut
    obtain ⟨rfl, hlabel⟩ := cut_eq_some hcut
    rw [if_neg (by simp)] at h
    split_ifs at h with hpast hlink
    · rw [scanLink] at h
      split_ifs at h with hhex heq
      obtain rfl : label = parentLabel := hlink.resolve_left heq
      exact .inl ⟨value, rfl, by simpa using hpast, by simpa [IsId] using hhex, (Option.some.inj h).symm⟩
    · exact .inr ⟨(label, value), rfl, ⟨fun heq => hlink (.inl heq), fun heq => hlink (.inr heq), hlabel⟩, h⟩
  · rintro (⟨id, rfl, hpast, hid, rfl⟩ | ⟨field, rfl, ⟨hnotTree, hparent, hlabel⟩, h⟩)
    · have hcut : cut 32 (parentLine id) = some (parentLabel, id) :=
        cut_append (show 32 ∉ parentLabel by decide) id
      simp [scanLine, hcut, hpast, scanLink, hid.1, hid.2, show parentLabel ≠ treeLabel by decide]
    · have hcut : cut 32 (fieldLine field) = some field := cut_append hlabel field.2
      simpa [scanLine, hcut, hparent, hnotTree] using h

/-- The lines after the first: parents, then other fields. -/
structure ScansTo (width : ℕ) (scan : CommitScan) (parents : List (List UInt8)) (fields : List (List UInt8 × List UInt8))
    (scan' : CommitScan) : Prop where
  early : scan.pastParents = true → parents = []
  ids : ∀ id ∈ parents, IsId width id
  others : ∀ field ∈ fields, IsOther field
  tree : scan'.tree = scan.tree
  parents : scan'.parents = scan.parents ++ parents.map lowerText
  author : Raises scan.author (valuesOf authorLabel fields) scan'.author
  committer : Raises scan.committer (valuesOf committerLabel fields) scan'.committer
  past : scan'.pastParents = (scan.pastParents || !fields.isEmpty)

theorem valuesOf_cons (label : List UInt8) (field : List UInt8 × List UInt8) (fields : List (List UInt8 × List UInt8)) :
    valuesOf label (field :: fields) = valuesOf label [field] ++ valuesOf label fields := by
  simp only [valuesOf, filter_cons]
  split_ifs <;> simp

/-- **The loop over the lines after the first.** -/
theorem scanLines_eq_some : ∀ {lines : List (List UInt8)} {scan : CommitScan} {index : ℕ}, scan.tree.isSome →
    ((lines.zipIdx (index + 1)).foldlM (scanLine width) scan = some scan' ↔ ∃ parents fields,
      lines = parents.map parentLine ++ fields.map fieldLine ∧ ScansTo width scan parents fields scan')
  | [], scan, index, htree => by
    constructor
    · rintro ⟨⟩
      exact ⟨[], [], rfl, fun _ => rfl, by simp, by simp, rfl, by simp, .inl ⟨rfl, rfl⟩, .inl ⟨rfl, rfl⟩, by simp⟩
    · rintro ⟨parents, fields, hlines, h⟩
      obtain ⟨hparents, hfields⟩ := append_eq_nil_iff.mp hlines.symm
      obtain rfl := map_eq_nil_iff.mp hparents
      obtain rfl := map_eq_nil_iff.mp hfields
      obtain ⟨tree, parents, author, committer, past⟩ := scan'
      obtain rfl : tree = scan.tree := h.tree
      obtain rfl : parents = scan.parents := by simpa using h.parents
      obtain rfl : author = scan.author := by simpa [Raises, valuesOf] using h.author
      obtain rfl : committer = scan.committer := by simpa [Raises, valuesOf] using h.committer
      obtain rfl : past = scan.pastParents := by simpa using h.past
      rfl
  | line :: lines, scan, index, htree => by
    rw [zipIdx_cons, foldlM_cons]
    simp only [Option.bind_eq_bind, Option.bind_eq_some_iff, scanLine_eq_some htree]
    constructor
    · rintro ⟨mid, ⟨id, rfl, hpast, hid, rfl⟩ | ⟨field, rfl, hother, hperson⟩, h⟩
      · obtain ⟨parents, fields, rfl, hrest⟩ := (scanLines_eq_some (by exact htree)).mp h
        refine ⟨id :: parents, fields, rfl, by simp [hpast], forall_mem_cons.mpr ⟨hid, hrest.ids⟩, hrest.others, hrest.tree,
          ?_, hrest.author, hrest.committer, hrest.past⟩
        rw [hrest.parents, map_cons]
        exact (append_cons _ _ _).symm
      · obtain ⟨htree', hparents, hpast, hauthor, hcommitter⟩ := scanPerson_eq_some.mp hperson
        obtain ⟨parents, fields, rfl, hrest⟩ := (scanLines_eq_some (htree' ▸ htree)).mp h
        obtain rfl := hrest.early hpast
        refine ⟨[], field :: fields, rfl, fun _ => rfl, by simp, forall_mem_cons.mpr ⟨hother, hrest.others⟩,
          hrest.tree.trans htree', by rw [hrest.parents, hparents], ?_, ?_, by simp [hrest.past, hpast]⟩
        · rw [valuesOf_cons]
          exact raises_append.mpr ⟨_, hauthor, hrest.author⟩
        · rw [valuesOf_cons]
          exact raises_append.mpr ⟨_, hcommitter, hrest.committer⟩
    · rintro ⟨_ | ⟨id, parents⟩, fields, hlines, h⟩
      · rcases fields with _ | ⟨field, fields⟩
        · simp at hlines
        · obtain ⟨rfl, rfl⟩ := cons.inj hlines
          obtain ⟨author, hauthor, hauthor'⟩ := raises_append.mp (valuesOf_cons authorLabel field fields ▸ h.author)
          obtain ⟨committer, hcommitter, hcommitter'⟩ :=
            raises_append.mp (valuesOf_cons committerLabel field fields ▸ h.committer)
          refine ⟨⟨scan.tree, scan.parents, author, committer, true⟩, .inr ⟨field, rfl, h.others field mem_cons_self,
            scanPerson_eq_some.mpr ⟨rfl, rfl, rfl, hauthor, hcommitter⟩⟩,
            (scanLines_eq_some (by exact htree)).mpr ⟨[], fields, rfl, ?_⟩⟩
          exact ⟨fun _ => rfl, by simp, fun f hf => h.others f (mem_cons_of_mem _ hf), h.tree, h.parents, hauthor',
            hcommitter', by simp [h.past]⟩
      · obtain ⟨rfl, rfl⟩ := cons.inj hlines
        have hpast : scan.pastParents = false := Bool.eq_false_iff.mpr fun hpast => cons_ne_nil _ _ (h.early hpast)
        refine ⟨_, .inl ⟨id, rfl, hpast, h.ids id mem_cons_self, rfl⟩,
          (scanLines_eq_some (by exact htree)).mpr ⟨parents, fields, rfl, ?_⟩⟩
        exact ⟨by simp [hpast], fun i hi => h.ids i (mem_cons_of_mem _ hi), h.others, h.tree, by simp [h.parents], h.author,
          h.committer, h.past⟩

/-- The first line is the tree. -/
theorem scanLine_start : scanLine width .start (line, 0) = some scan' ↔ ∃ tree, line = fieldLine (treeLabel, tree) ∧
    IsId width tree ∧ scan' = { CommitScan.start with tree := some (lowerText tree) } := by
  constructor
  · intro h
    rw [scanLine] at h
    split at h
    · cases h
    rename_i label value hcut
    obtain ⟨rfl, hlabel⟩ := cut_eq_some hcut
    split_ifs at h with hfirst hpast hlink
    · obtain rfl : label = treeLabel := by simpa using hfirst
      rw [scanLink, if_pos rfl] at h
      split_ifs at h with hhex hsome
      exact ⟨value, rfl, by simpa [IsId] using hhex, (Option.some.inj h).symm⟩
    · exact absurd (by simpa using hfirst) (not_or.mp hlink).1
  · rintro ⟨tree, rfl, hid, rfl⟩
    have hcut : cut 32 (fieldLine (treeLabel, tree)) = some (treeLabel, tree) :=
      cut_append (show 32 ∉ treeLabel by decide) tree
    simp [scanLine, hcut, scanLink, hid.1, hid.2, CommitScan.start]

end Scan

theorem headerEnd_eq_some : ∀ {payload : List UInt8} {stop : ℕ}, headerEnd payload = some stop →
    ∃ message, payload = payload.take stop ++ 10 :: 10 :: message
  | a :: b :: rest, stop, h => by
    rw [headerEnd] at h
    split_ifs at h with hend
    · cases h
      exact ⟨rest, by rw [hend.1, hend.2]; rfl⟩
    · obtain ⟨stop, hstop, rfl⟩ := Option.map_eq_some_iff.mp h
      obtain ⟨message, hmessage⟩ := headerEnd_eq_some hstop
      exact ⟨message, by rw [take_succ_cons, cons_append, ← hmessage]⟩
  | [], _, h => nomatch h
  | [_], _, h => nomatch h

theorem headerEnd_line (rest : List UInt8) : ∀ {line : List UInt8}, IsLine 10 line →
    headerEnd (line ++ 10 :: rest) = (headerEnd (10 :: rest)).map (· + line.length)
  | [], h => absurd rfl h.1
  | [a], h => by
    have ha : a ≠ 10 := fun heq => h.2 (by simp [heq])
    simp [headerEnd, ha]
  | a :: b :: line, h => by
    have ha : a ≠ 10 := fun heq => h.2 (by simp [heq])
    have ih := headerEnd_line rest ⟨cons_ne_nil b line, fun hmem => h.2 (mem_cons_of_mem _ hmem)⟩
    simp only [cons_append] at ih ⊢
    rw [headerEnd, if_neg (fun hend => ha hend.1), ih]
    simp [Option.map_map, Function.comp_def, Nat.add_assoc]

theorem headerEnd_blockText (message : List UInt8) : ∀ {lines : List (List UInt8)}, lines ≠ [] →
    (∀ line ∈ lines, IsLine 10 line) → headerEnd (blockText 10 lines message) = some ([10].intercalate lines).length
  | [], hne, _ => absurd rfl hne
  | [line], _, h => by
    rw [blockText_cons, headerEnd_line _ (h line mem_cons_self)]
    simp [blockText, headerEnd, List.intercalate]
  | line :: next :: lines, _, h => by
    have ih := headerEnd_blockText message (cons_ne_nil next lines) fun other hother => h other (mem_cons_of_mem _ hother)
    obtain ⟨hnext, hnot⟩ := h next (by simp)
    obtain ⟨c, more, rfl⟩ := exists_cons_of_ne_nil hnext
    have hc : c ≠ 10 := fun heq => hnot (by simp [heq])
    rw [blockText_cons, cons_append] at ih
    rw [blockText_cons, headerEnd_line _ (h line mem_cons_self), blockText_cons, cons_append, headerEnd,
      if_neg (fun hend => hc hend.2), ih]
    simp only [Option.map_some, Option.some.injEq, List.intercalate, intersperse_cons_cons, flatten_cons, length_append,
      length_singleton]
    omega

theorem not_mem_of_isId {width : ℕ} {id : List UInt8} (h : IsId width id) : 10 ∉ id := fun hmem =>
  absurd (all_eq_true.mp h.2 10 hmem) (by decide)

/-- **Which bytes are read as a commit**, and with which links. -/
theorem verifiedCommitLinks_eq_some {width : ℕ} {payload : List UInt8} {links : CommitLinks} :
    verifiedCommitLinks width payload = some links ↔ CommitBytes width payload links := by
  constructor
  · intro h
    obtain ⟨stop, hstop, h⟩ := Option.bind_eq_some_iff.mp h
    obtain ⟨scan, hscan, h⟩ := Option.bind_eq_some_iff.mp h
    obtain ⟨message, hmessage⟩ := headerEnd_eq_some hstop
    obtain ⟨first, lines, hsplit⟩ := exists_cons_of_ne_nil (splitOn_ne_nil 10 (payload.take stop))
    rw [hsplit, zipIdx_cons, foldlM_cons] at hscan
    obtain ⟨mid, hfirst, hscan⟩ := Option.bind_eq_some_iff.mp hscan
    obtain ⟨tree, rfl, hid, rfl⟩ := scanLine_start.mp hfirst
    obtain ⟨parents, fields, rfl, hrest⟩ := (scanLines_eq_some rfl).mp hscan
    split_ifs at h with hpeople
    obtain ⟨hauthor, hcommitter⟩ : scan.author = true ∧ scan.committer = true := by simpa using hpeople
    have honce : ∀ {values}, Raises false values true → ∃ value ≠ [], values = [value] := by simp [Raises]
    refine ⟨⟨tree, parents, fields, forall_mem_cons.mpr ⟨hid, hrest.ids⟩, hrest.others, fun field hfield => ?_,
      honce (hauthor ▸ hrest.author), honce (hcommitter ▸ hrest.committer)⟩, message, ?_, ?_⟩
    · have hline : fieldLine field ∈ (payload.take stop).splitOn 10 := by
        rw [hsplit]
        exact mem_cons_of_mem _ (mem_append_right _ (mem_map_of_mem hfield))
      exact Splits.not_mem_of_mem_splitOn hline
    · rw [blockText_eq (cons_ne_nil _ _), ← hsplit, intercalate_splitOn]
      exact hmessage
    · rw [hrest.tree, hrest.parents] at h
      exact (Option.some.inj h).symm
  · rintro ⟨⟨tree, parents, fields, hids, hothers, hplain, hauthor, hcommitter⟩, message, rfl, rfl⟩
    obtain ⟨htree, hparents⟩ := forall_mem_cons.mp hids
    have hlines : ∀ line ∈ fieldLine (treeLabel, tree) :: (parents.map parentLine ++ fields.map fieldLine), IsLine 10 line := by
      have hline : ∀ {label id}, 10 ∉ label → IsId width id → IsLine 10 (fieldLine (label, id)) := fun hlabel hid =>
        ⟨by simp [fieldLine], by simp [fieldLine, hlabel, not_mem_of_isId hid]⟩
      refine forall_mem_cons.mpr ⟨hline (by decide) htree, forall_mem_append.mpr ⟨?_, ?_⟩⟩
      · exact forall_mem_map.mpr fun id hid => hline (by decide) (hparents id hid)
      · exact forall_mem_map.mpr fun field hfield => ⟨by simp [fieldLine], hplain field hfield⟩
    unfold verifiedCommitLinks
    rw [headerEnd_blockText message (cons_ne_nil _ _) hlines, blockText_eq (cons_ne_nil _ _)]
    simp only [Option.bind_eq_bind, Option.bind_some, take_left]
    rw [splitOn_intercalate 10 (fun line hline => (hlines line hline).2) (cons_ne_nil _ _), zipIdx_cons, foldlM_cons,
      scanLine_start.mpr ⟨tree, rfl, htree, rfl⟩]
    have hscan : ((parents.map parentLine ++ fields.map fieldLine).zipIdx (0 + 1)).foldlM (scanLine width)
        { CommitScan.start with tree := some (lowerText tree) } =
          some ⟨some (lowerText tree), parents.map lowerText, true, true, !fields.isEmpty⟩ :=
      (scanLines_eq_some rfl).mpr ⟨parents, fields, rfl, by simp [CommitScan.start], hparents, hothers, rfl, rfl,
        .inr ⟨rfl, rfl, hauthor⟩, .inr ⟨rfl, rfl, hcommitter⟩, by simp [CommitScan.start]⟩
    simp only [Option.bind_eq_bind, Option.bind_some, hscan]
    rfl

/-! ### Well-formed trees -/

inductive ModeText : RawTreeMode → List UInt8 → Prop
  | tree : ModeText .tree (ascii "40000")
  | paddedTree : ModeText .tree (ascii "040000")
  | file : ModeText .blob (ascii "100644")
  | executable : ModeText .blob (ascii "100755")
  | symlink : ModeText .blob (ascii "120000")
  | gitlink : ModeText .gitlink (ascii "160000")

/-- The bytes of entries: a mode, a blank, a name, a zero byte and an id each. -/
inductive TreeBytes (hashBytes : ℕ) : List UInt8 → List RawTreeEntry → Prop
  | nil : TreeBytes hashBytes [] []
  | cons {mode : RawTreeMode} {modeText name id rest : List UInt8} {entries : List RawTreeEntry}
      (hmode : ModeText mode modeText) (hname : 0 ∉ name) (hid : id.length = hashBytes)
      (hrest : TreeBytes hashBytes rest entries) :
      TreeBytes hashBytes (modeText ++ 32 :: name ++ 0 :: (id ++ rest)) (⟨mode, name, hexEncode id⟩ :: entries)

/-- The names are legal, no two are the same, and they are in Git's order. -/
structure TreeOrder (entries : List RawTreeEntry) : Prop where
  legal : ∀ entry ∈ entries, entry.name ≠ [] ∧ entry.name ≠ [46] ∧ entry.name ≠ [46, 46] ∧ 47 ∉ entry.name
  nodup : (entries.map RawTreeEntry.name).Nodup
  sorted : entries.IsChain fun a b => a.sortKey < b.sortKey

theorem treeMode_eq_some {modeText : List UInt8} {mode : RawTreeMode} :
    treeMode modeText = some mode ↔ ModeText mode modeText := by
  constructor
  · intro h
    unfold treeMode at h
    split_ifs at h with htree hblob hlink
    · cases h
      rcases htree with rfl | rfl
      · exact .tree
      · exact .paddedTree
    · cases h
      rcases hblob with rfl | rfl | rfl
      · exact .file
      · exact .executable
      · exact .symlink
    · cases h
      rw [hlink]
      exact .gitlink
  · intro h
    cases h <;> decide

/-- The text of a mode has neither a blank nor a zero byte. -/
theorem ModeText.plain {mode : RawTreeMode} {modeText : List UInt8} (h : ModeText mode modeText) :
    32 ∉ modeText ∧ 0 ∉ modeText := by
  cases h <;> decide

/-- One more entry. -/
theorem treeOrder_concat {entries : List RawTreeEntry} {entry : RawTreeEntry} (h : TreeOrder entries) :
    TreeOrder (entries ++ [entry]) ↔ (entryName entry.name = true ∧ entry.name ∉ entries.map RawTreeEntry.name) ∧
      ∀ previous ∈ entries.getLast?, previous.sortKey < entry.sortKey := by
  have hname : entryName entry.name = true ↔
      entry.name ≠ [] ∧ entry.name ≠ [46] ∧ entry.name ≠ [46, 46] ∧ 47 ∉ entry.name := by simp [entryName]
  rw [hname]
  constructor
  · intro hmore
    obtain ⟨-, -, hnew⟩ := nodup_append.mp (map_append ▸ hmore.nodup)
    refine ⟨⟨hmore.legal entry (by simp), fun hmem => hnew _ hmem _ (by simp) rfl⟩, fun previous hprevious => ?_⟩
    exact (isChain_append.mp hmore.sorted).2.2 previous hprevious entry rfl
  · intro hnew
    obtain ⟨⟨hlegal, hfresh⟩, hless⟩ := hnew
    refine ⟨forall_mem_append.mpr ⟨h.legal, forall_mem_singleton.mpr hlegal⟩, ?_, ?_⟩
    · rw [map_append, nodup_append]
      exact ⟨h.nodup, nodup_singleton _, fun a ha b hb => by rw [mem_singleton.mp hb]; rintro rfl; exact hfresh ha⟩
    · rw [isChain_append]
      exact ⟨h.sorted, .singleton _, fun a ha b hb => by cases hb; exact hless a ha⟩

theorem TreeOrder.before {entries more : List RawTreeEntry} (h : TreeOrder (entries ++ more)) : TreeOrder entries := by
  refine ⟨fun entry hentry => h.legal entry (mem_append_left _ hentry), ?_, (isChain_append.mp h.sorted).1⟩
  exact (nodup_append.mp (map_append ▸ h.nodup)).1

theorem treeBytes_nil {hashBytes : ℕ} {entries : List RawTreeEntry} (h : TreeBytes hashBytes [] entries) :
    entries = [] := by
  generalize hbytes : ([] : List UInt8) = bytes at h
  cases h with
  | nil => rfl
  | cons => simp at hbytes

/-- The first entry of bytes that are not empty. -/
theorem treeBytes_iff {hashBytes : ℕ} {rest : List UInt8} {new : List RawTreeEntry} (hne : rest ≠ []) :
    TreeBytes hashBytes rest new ↔ ∃ header after modeText name mode entries, cut 0 rest = some (header, after) ∧
      cut 32 header = some (modeText, name) ∧ hashBytes ≤ after.length ∧ treeMode modeText = some mode ∧
      TreeBytes hashBytes (after.drop hashBytes) entries ∧
      new = ⟨mode, name, hexEncode (after.take hashBytes)⟩ :: entries := by
  constructor
  · intro h
    cases h with
    | nil => exact absurd rfl hne
    | @cons mode modeText name id rest entries hmode hname hid hrest =>
      have hheader : 0 ∉ modeText ++ 32 :: name := by simp [hmode.plain.2, hname]
      refine ⟨_, id ++ rest, modeText, name, mode, entries, cut_append hheader _, cut_append hmode.plain.1 _, ?_,
        treeMode_eq_some.mpr hmode, ?_, ?_⟩
      · rw [length_append]
        omega
      · subst hid
        rwa [drop_left]
      · rw [← hid, take_left]
  · rintro ⟨header, after, modeText, name, mode, entries, hcut, hheader, hlength, hmode, hrest, rfl⟩
    obtain ⟨rfl, hzero⟩ := cut_eq_some hcut
    obtain ⟨rfl, -⟩ := cut_eq_some hheader
    have hid : (after.take hashBytes).length = hashBytes := by
      rw [length_take]
      omega
    have hname : 0 ∉ name := fun hmem => hzero (mem_append_right _ (mem_cons_of_mem _ hmem))
    have hall := TreeBytes.cons (treeMode_eq_some.mp hmode) hname hid hrest
    rwa [take_append_drop] at hall

theorem scanTree_eq_some {hashBytes : ℕ} : ∀ {fuel : ℕ} {rest : List UInt8} {entries result : List RawTreeEntry},
    rest.length ≤ fuel → TreeOrder entries → (scanTree hashBytes fuel rest entries = some result ↔
      ∃ new, TreeBytes hashBytes rest new ∧ result = entries ++ new ∧ TreeOrder result)
  | fuel, [], entries, result, _, horder => by
    have hend : scanTree hashBytes fuel [] entries = some entries := by cases fuel <;> rfl
    rw [hend]
    constructor
    · rintro ⟨⟩
      exact ⟨[], .nil, (append_nil _).symm, horder⟩
    · rintro ⟨new, hnew, rfl, -⟩
      rw [treeBytes_nil hnew, append_nil]
  | 0, byte :: rest, _, _, hfuel, _ => absurd hfuel (Nat.not_succ_le_zero _)
  | fuel + 1, byte :: rest, entries, result, hfuel, horder => by
    have hfuel' : ∀ {header after}, cut 0 (byte :: rest) = some (header, after) → (after.drop hashBytes).length ≤ fuel := by
      intro header after hcut
      have hlt := length_of_cut hcut
      rw [length_drop]
      rw [length_cons] at hlt hfuel
      omega
    rw [scanTree, if_neg (cons_ne_nil _ _)]
    constructor
    · intro h
      split at h
      · cases h
      rename_i header after hcut
      split at h
      · cases h
      rename_i modeText name hheader
      split_ifs at h with hlength hname
      split at h
      · cases h
      rename_i mode hmode
      dsimp only at h
      split_ifs at h with hless
      have horder' : TreeOrder (entries ++ [⟨mode, name, hexEncode (after.take hashBytes)⟩]) := by
        refine (treeOrder_concat horder).mpr ⟨by simpa using hname, fun previous hprevious => ?_⟩
        rw [Option.mem_def.mp hprevious] at hless
        simpa using hless
      obtain ⟨new, hnew, rfl, hresult⟩ := (scanTree_eq_some (hfuel' hcut) horder').mp h
      refine ⟨_, (treeBytes_iff (cons_ne_nil _ _)).mpr ⟨header, after, modeText, name, mode, new, hcut, hheader,
        by omega, hmode, hnew, rfl⟩, (append_cons _ _ _).symm, hresult⟩
    · rintro ⟨new, hnew, rfl, hresult⟩
      obtain ⟨header, after, modeText, name, mode, more, hcut, hheader, hlength, hmode, hrest, rfl⟩ :=
        (treeBytes_iff (cons_ne_nil _ _)).mp hnew
      rw [append_cons] at hresult ⊢
      obtain ⟨hname, hless⟩ := (treeOrder_concat horder).mp hresult.before
      have hsorted : ¬(entries.getLast?.any fun previous => decide (¬previous.sortKey <
          (⟨mode, name, hexEncode (after.take hashBytes)⟩ : RawTreeEntry).sortKey)) = true := by
        cases hlast : entries.getLast? with
        | none => simp
        | some previous => simpa using hless previous hlast
      simp only [hcut, hheader, hmode, if_neg (Nat.not_lt.mpr hlength)]
      rw [if_neg (by simpa using hname), if_neg hsorted]
      exact (scanTree_eq_some (hfuel' hcut) hresult.before).mpr ⟨more, hrest, rfl, hresult⟩

/-- **Which bytes are read as a tree**, and as which. -/
theorem verifiedTreeEntries_eq_some {hashBytes : ℕ} {payload : List UInt8} {entries : List RawTreeEntry} :
    verifiedTreeEntries hashBytes payload = some entries ↔ TreeBytes hashBytes payload entries ∧ TreeOrder entries := by
  rw [verifiedTreeEntries, scanTree_eq_some (Nat.le_refl _) ⟨by simp, by simp, .nil⟩]
  simp

/-! ### References -/

/-- An object as it is referred to. -/
abbrev Ref := String × RawObjectType

/-- The tree of a commit comes first. -/
def CommitLinks.refs (links : CommitLinks) : List Ref :=
  (links.tree, .tree) :: links.parents.map fun parent => (parent, .commit)

/-- What an entry of a tree leads to: gitlinks are not followed. -/
def RawTreeEntry.ref? (entry : RawTreeEntry) : Option Ref :=
  match entry.mode with
  | .tree => some (entry.oid, .tree)
  | .blob => some (entry.oid, .blob)
  | .gitlink => none

/-- The references in the bytes of a well-formed object, whose ids have `width` digits. -/
inductive RefsIn (width : ℕ) : RawObjectType → List UInt8 → List Ref → Prop
  | commit {bytes : List UInt8} {links : CommitLinks} (h : CommitBytes width bytes links) :
      RefsIn width .commit bytes links.refs
  | tree {bytes : List UInt8} {entries : List RawTreeEntry} (h : TreeBytes (width / 2) bytes entries)
      (horder : TreeOrder entries) : RefsIn width .tree bytes (entries.filterMap RawTreeEntry.ref?)
  | blob {bytes : List UInt8} : RefsIn width .blob bytes []

theorem CommitBytes.unique {width : ℕ} {bytes : List UInt8} {links links' : CommitLinks}
    (h : CommitBytes width bytes links) (h' : CommitBytes width bytes links') : links = links' :=
  Option.some.inj ((verifiedCommitLinks_eq_some.mpr h).symm.trans (verifiedCommitLinks_eq_some.mpr h'))

theorem RefsIn.unique {width : ℕ} {kind : RawObjectType} {bytes : List UInt8} {refs refs' : List Ref}
    (h : RefsIn width kind bytes refs) (h' : RefsIn width kind bytes refs') : refs = refs' := by
  cases h with
  | commit h =>
    obtain ⟨h'⟩ := h'
    rw [h.unique h']
  | tree h horder =>
    obtain _ | ⟨h', horder'⟩ := h'
    have hread := verifiedTreeEntries_eq_some.mpr ⟨h, horder⟩
    rw [Option.some.inj (hread.symm.trans (verifiedTreeEntries_eq_some.mpr ⟨h', horder'⟩))]
  | blob =>
    cases h'
    rfl

/-! ### A small history -/

def sampleId (n : UInt8) : List UInt8 := replicate 20 n

def sampleOid (n : UInt8) : String := hexEncode (sampleId n)

/-- A commit `1` on a commit `7`. The tree `2` of the first has the trees `3` and `4`, and `4` has `3` again and a
gitlink; `3` is also the tree of the second, and has a file `5`. -/
def sampleContent (oid : String) : Option VerifiedRawObject :=
  let people := "\nauthor a\ncommitter c\n\nmessage"
  let entry := fun (header : String) n => ascii header ++ 0 :: sampleId n
  if oid = sampleOid 1 then
    some ⟨.commit, ascii ("tree " ++ sampleOid 2 ++ "\nparent " ++ sampleOid 7 ++ people)⟩
  else if oid = sampleOid 7 then some ⟨.commit, ascii ("tree " ++ sampleOid 3 ++ people)⟩
  else if oid = sampleOid 2 then some ⟨.tree, entry "40000 a" 3 ++ entry "40000 b" 4⟩
  else if oid = sampleOid 3 then some ⟨.tree, entry "100644 f" 5⟩
  else if oid = sampleOid 4 then some ⟨.tree, entry "40000 c" 3 ++ entry "160000 d" 6⟩
  else if oid = sampleOid 5 then some ⟨.blob, ascii "text"⟩
  else none

end Traces
end Mega
