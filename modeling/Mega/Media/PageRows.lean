/-
# The rows of uploaded pages

`put_page_at` of `ceres/lfs/media/service.rs` compares the page number, as a
signed number of 32 bits, with the number of pages of the session, and
`put_page_entries_in_txn` of `jupiter/storage/media_paging_storage.rs` compares
each entry with the rows that are stored already. What holds of the rows then:

* while every page number is below `2 ^ 31`, a row has a page number of its
  session, and the one that the page was put under. A larger number is negative
  when it is compared, and it is stored so;
* while no page has a chunk hash with two lengths, a chunk hash has one length
  in its session. Entries of one page are not compared with each other.

Key definitions: `Placed`, `OneLength`.
Key theorems: `pages_in_range`, `hash_has_one_length`.
-/
import Mega.Media.EntryRows
import Mega.Media.TaskStates

namespace Mega
namespace Media

open List View
open Proc (Only)

variable {codec : Codec} {scope manifestId : Text} {page : ManifestPage} {now : ℕ} {w : World} {op : Op}
  {input : Input}

/-! ### Page numbers -/

/-- The page number is one of the session. -/
def InSession (w : World) (scope manifestId : Text) (pageNo : ℤ) : Prop :=
  ∃ session, w.paging.sessions (scope, manifestId) = some session ∧ 0 ≤ pageNo ∧ pageNo < session.pageCount

/-- Every row has a page number of its session, and `origin` says where it is from. -/
def Placed (origin : EntryRow → Prop) (w : World) : Prop :=
  ∀ row ∈ w.paging.entries, origin row ∧ InSession w row.scope row.manifestId row.pageNo

variable {origin : EntryRow → Prop}

theorem InSession.later {t : World} {pageNo : ℤ} (h : InSession w scope manifestId pageNo) (hext : Extends w t) :
    InSession t scope manifestId pageNo := by
  obtain ⟨session, hsession, hnonneg, hlt⟩ := h
  obtain ⟨after, hafter, hcount⟩ := hext.pageCount _ _ hsession
  exact ⟨after, hafter, hnonneg, by rw [hcount]; exact hlt⟩

/-- A call keeps the rows in place if it stores none, or stores them in place. -/
theorem placed_exec (h : Placed origin w) (hput : ∀ scope manifestId pageNo rows,
      op = .putPageEntries scope manifestId pageNo rows → InSession w scope manifestId pageNo ∧
        ∀ e ∈ rows, origin (e.toEntry scope manifestId pageNo)) : Placed origin (exec input op w).1 := by
  have hext := extends_exec input op w
  have hold : ∀ row ∈ w.paging.entries, origin row ∧ InSession (exec input op w).1 row.scope row.manifestId row.pageNo :=
    fun row hrow => ⟨(h row hrow).1, (h row hrow).2.later hext⟩
  intro row hrow
  rcases tablesAfter_exec input op w with ⟨hentries, -⟩ | ⟨-, -, -, -, -, -, -, -, -, hentries, -⟩ |
    ⟨-, -, -, -, -, -, hentries, -⟩ | ⟨scope, manifestId, pageNo, rows, hop, -, -, hentries, -⟩
  · exact hold row (hentries ▸ hrow)
  · exact hold row (hentries ▸ hrow)
  · exact hold row (hentries ▸ hrow)
  · rw [hentries] at hrow
    rcases mem_append.mp hrow with hrow | hrow
    · exact hold row hrow
    · obtain ⟨e, he, rfl⟩ := mem_map.mp hrow
      obtain ⟨hsession, horigin⟩ := hput scope manifestId pageNo rows hop
      exact ⟨horigin e he, hsession.later hext⟩

theorem placed_of_storesPage (hop : op.storesPage = false) (h : Placed origin w) (input : Input) :
    Placed origin (exec input op w).1 := by
  refine placed_exec h ?_
  rintro scope manifestId pageNo rows rfl
  cases hop

/-- The program keeps the rows in place, whatever the others do; if it returns, `Q` holds. -/
def Places (origin : EntryRow → Prop) {α : Type} (Q : α → World → Prop) (x : Code α) (w : World) : Prop :=
  Proc.Safe exec (Placed origin) Extends Q (fun _ _ => True) x w

section Rules

variable {α β : Type} {Q Q' : α → World → Prop} {R : β → World → Prop}

theorem Places.bind {x : Code α} {f : α → Code β} (hw : Placed origin w) (hx : Places origin Q x w)
    (hf : ∀ a t, Extends w t → Placed origin t → Q a t → Places origin R (f a) t) : Places origin R (x >>= f) w :=
  Proc.Safe.bind Extends.refl (fun _ _ _ => Extends.trans) hw hx hf

theorem Places.conseq {x : Code α} (h : Places origin Q x w) (hQ : ∀ a t, Extends w t → Q a t → Q' a t) :
    Places origin Q' x w :=
  Proc.Safe.conseq (fun _ _ _ hab hbc => hab.trans hbc) h (fun a t hext _ => hQ a t hext) fun _ _ _ _ _ => trivial

theorem Places.require {c : Prop} [Decidable c] {e : MediaError} {f : Unit → Code β}
    (h : c → Places origin R (f ()) w) : Places origin R (Proc.require c e >>= f) w := by
  unfold Proc.require
  by_cases hc : c
  · rw [if_pos hc]
    exact h hc
  · rw [if_neg hc]
    exact fun _ _ _ => trivial

/-- Programs that store no page. -/
theorem places_of_storesNone {x : Code α} (hx : Only (fun op : Op => op.storesPage = false) x) (w : World) :
    Places origin (fun _ _ => True) x w :=
  hx.safe (fun op hop s hs input => ⟨placed_of_storesPage hop hs input, extends_exec input op s⟩) w

end Rules

theorem exec_getSession {session : SessionRow} (h : (exec input (.getSession scope manifestId) w).2 = .ok session) :
    (exec input (.getSession scope manifestId) w).1 = w ∧ w.paging.sessions (scope, manifestId) = some session := by
  unfold exec at h ⊢
  split at h
  · rw [perform, getSession] at h
    rw [perform, getSession]
    cases hfound : w.paging.sessions (scope, manifestId) with
    | none =>
      rw [hfound] at h
      cases h
    | some found =>
      rw [hfound] at h
      cases h
      exact ⟨rfl, rfl⟩
  · cases h
  · cases h

theorem exec_putPageEntries {pageNo : ℤ} {rows : List ChunkIndexRow}
    (h : (exec input (.putPageEntries scope manifestId pageNo rows) w).2 = .ok ()) :
    putPageEntries w.paging scope manifestId pageNo rows =
      .ok (exec input (.putPageEntries scope manifestId pageNo rows) w).1.paging := by
  unfold exec at h ⊢
  split at h
  · rw [perform] at h
    rw [perform]
    cases hput : putPageEntries w.paging scope manifestId pageNo rows with
    | error e =>
      rw [hput] at h
      cases h
    | ok db => rfl
  · cases h
  · cases h

/-- The rows of a page are those of its entries. -/
structure StoredAs (w : World) (scope manifestId : Text) (pageNo : ℤ) (entries : List ChunkEntry) : Prop where
  nonempty : entries ≠ []
  spots : (listEntriesForPage w.paging scope manifestId pageNo).map EntryRow.spot = entries.map ChunkEntry.spot

theorem StoredAs.later {t : World} {pageNo : ℤ} {entries : List ChunkEntry}
    (h : StoredAs w scope manifestId pageNo entries) (hext : Extends w t) :
    StoredAs t scope manifestId pageNo entries := by
  have hrows : listEntriesForPage w.paging scope manifestId pageNo ≠ [] := by
    intro hnil
    have hspots := h.spots
    rw [hnil, map_nil] at hspots
    exact h.nonempty (map_eq_nil_iff.mp hspots.symm)
  exact ⟨h.nonempty, by rw [hext.rows _ _ _ hrows, h.spots]⟩

/-- What the answer to a request says of the rows. -/
def Request.StoresPage : Request → World → Prop
  | .putPage scope manifestId page _, w => StoredAs w scope manifestId page.pageNo page.entries
  | _, _ => True

section Upload

variable (hsmall : page.pageNo < 2 ^ 31)
  (horigin : ∀ e ∈ indexRows page.entries, origin (e.toEntry scope manifestId page.pageNo))

include hsmall horigin

theorem places_storePage (hne : page.entries ≠ []) (hsession : InSession w scope manifestId page.pageNo) :
    Places origin (fun _ t => StoredAs t scope manifestId page.pageNo page.entries)
      (storePage codec scope manifestId page) w := by
  have hpageNo : asI32 page.pageNo = page.pageNo := asI32_of_lt hsmall
  intro t hwt ht input
  rw [hpageNo]
  refine ⟨placed_exec ht ?_, extends_exec _ _ _, ?_⟩
  · rintro scope' manifestId' pageNo' rows' hop
    cases hop
    exact ⟨hsession.later hwt, horigin⟩
  · cases hput : (exec input (.putPageEntries scope manifestId page.pageNo (indexRows page.entries)) t).2 with
    | error e => exact fun _ _ _ => trivial
    | ok _ =>
      have hstored : StoredAs (exec input (.putPageEntries scope manifestId page.pageNo (indexRows page.entries)) t).1
          scope manifestId page.pageNo page.entries := ⟨hne, rows_putPageEntries (exec_putPageEntries hput)⟩
      have hrest : Only (fun op : Op => op.storesPage = false) (do
          let _ ← pageKey scope manifestId page.pageNo
          Proc.require (codec.pageSize page ≤ maxEnvelopeSize) (.invalid .envelope)
          let _ ← ask (.putObject (.page scope manifestId page.pageNo) page)
          pure () : Code Unit) := by
        refine (only_pageKey _ _ _).bind fun _ => ?_
        refine only_require_bind ?_
        exact only_ask_bind rfl fun _ => trivial
      refine (places_of_storesNone hrest _).conseq ?_
      intro _ u hext _
      exact hstored.later hext

/-- **The upload of a page whose number is below `2 ^ 31`**, while other requests go on. -/
theorem places_putPageAt (hw : Placed origin w) :
    Places origin (fun _ t => StoredAs t scope manifestId page.pageNo page.entries)
      (putPageAt codec scope manifestId page now) w := by
  have hroutine : ∀ op : Op, op.routine = true → op.opens = false → op.storesPage = false :=
    fun _ h _ => storesPage_of_routine h
  unfold putPageAt
  cases hvalid : page.validate codec with
  | error why => exact fun _ _ _ => trivial
  | ok _ =>
    have hne : page.entries ≠ [] := entries_ne_nil_of_validate hvalid
    rw [check, Proc.ret_bind]
    refine Places.bind hw (places_of_storesNone (only_requireActivePending hroutine codec scope manifestId now) w) ?_
    intro _ t _ _ _ u _ hu input
    -- the session tells the number of pages, which does not change until the rows are stored
    refine ⟨placed_of_storesPage rfl hu input, extends_exec _ _ _, ?_⟩
    cases hanswer : (exec input (.getSession scope manifestId) u).2 with
    | error e => exact fun _ _ _ => trivial
    | ok session =>
      obtain ⟨hsame, hsession⟩ := exec_getSession hanswer
      rw [hsame]
      refine Places.require fun _ => Places.require fun hrange => ?_
      rw [asI32_of_lt hsmall] at hrange
      exact places_storePage hsmall horigin hne ⟨session, hsession, Int.natCast_nonneg _, hrange⟩

end Upload

/-- The row is one of a page that a request put under this page number. -/
def PutUnder (events : List Event) (row : EntryRow) : Prop :=
  ∃ page now, .start (.putPage row.scope row.manifestId page now) ∈ events ∧ row.pageNo = page.pageNo ∧
    row ∈ (indexRows page.entries).map (ChunkIndexRow.toEntry row.scope row.manifestId page.pageNo)

/-- Every request of the run keeps the rows in place. -/
theorem places_code {events : List Event}
    (hsmall : ∀ scope manifestId page now, .start (.putPage scope manifestId page now) ∈ events →
      page.pageNo < 2 ^ 31) {request : Request} (hstart : .start request ∈ events) (hw : Placed (PutUnder events) w) :
    Places (PutUnder events) (fun _ => request.StoresPage) (code codec request) w := by
  by_cases hput : ∃ scope manifestId page now, request = .putPage scope manifestId page now
  · obtain ⟨scope, manifestId, page, now, rfl⟩ := hput
    have horigin : ∀ e ∈ indexRows page.entries, PutUnder events (e.toEntry scope manifestId page.pageNo) :=
      fun e he => ⟨page, now, hstart, rfl, mem_map_of_mem he⟩
    refine Places.bind hw (places_putPageAt (hsmall _ _ _ _ hstart) horigin hw) ?_
    intro _ t _ _ hstored u htu _
    exact hstored.later htu
  · have honly : Only (fun op : Op => op.storesPage = false) (code codec request) :=
      only_code (fun _ _ h => h) (fun _ _ _ _ _ _ _ _ _ => rfl)
        fun scope manifestId page now heq => absurd ⟨scope, manifestId, page, now, heq⟩ hput
    refine (places_of_storesNone honly w).conseq ?_
    intro _ t _ _
    cases request with
    | putPage scope manifestId page now => exact absurd ⟨scope, manifestId, page, now, rfl⟩ hput
    | _ => trivial

/-- **While page numbers are below `2 ^ 31`, a row has a page number of its session, and it is the one that its page
was put under.** -/
theorem pages_in_range (codec : Codec) (events : List Event)
    (hsmall : ∀ scope manifestId page now, .start (.putPage scope manifestId page now) ∈ events →
      page.pageNo < 2 ^ 31) :
    (∀ row ∈ (run codec System.empty events).shared.paging.entries, PutUnder events row ∧
        ∃ session, (run codec System.empty events).shared.paging.sessions (row.scope, row.manifestId) = some session ∧
          0 ≤ row.pageNo ∧ row.pageNo < session.pageCount) ∧
      ∀ scope manifestId page now answer,
        ⟨.putPage scope manifestId page now, .ret answer⟩ ∈ (run codec System.empty events).threads →
          (listEntriesForPage (run codec System.empty events).shared.paging scope manifestId page.pageNo).map
            EntryRow.spot = page.entries.map ChunkEntry.spot := by
  have hempty : Pool.Safe exec (Placed (PutUnder events)) Extends (fun request (_ : Answer) => request.StoresPage)
      System.empty := ⟨fun row hrow => absurd hrow not_mem_nil, fun thread hthread => absurd hthread not_mem_nil⟩
  have hsafe : Pool.Safe exec (Placed (PutUnder events)) Extends (fun request (_ : Answer) => request.StoresPage)
      (run codec System.empty events) :=
    (Pool.Safe.run_rel Extends.refl (fun _ _ _ => Extends.trans)
      (fun request hstart w hw => places_code hsmall hstart hw) hempty).1
  refine ⟨hsafe.shared, ?_⟩
  intro scope manifestId page now answer hthread
  have hstored : StoredAs _ scope manifestId page.pageNo page.entries := hsafe.goal_of_ret Extends.refl hthread
  exact hstored.spots

/-- A file of one chunk. -/
def oneChunk : ChunkEntry := ⟨0, 1, plainId, 1, compressionNone, none⟩

def oneChunkFile : MediaManifest :=
  ⟨manifestVersion, chunkAlgorithm, hashAlgorithm, plainId, 1, [oneChunk], ⟨[], [], []⟩, none⟩

/-- The file is prepared, and a page is put. -/
def onePut (page : ManifestPage) : List Event :=
  served (.prepare plainScope oneChunkFile 0) 0 4 ++ served (.putPage plainScope plainId page 0) 1 4

theorem eq_of_start_mem_onePut {put page : ManifestPage} {scope manifestId : Text} {now : ℕ}
    (h : .start (.putPage scope manifestId put now) ∈ onePut page) : put = page := by
  have hput : .putPage scope manifestId put now = Request.putPage plainScope plainId page 0 := by
    simpa [onePut, served, calls, mem_replicate] using h
  cases hput
  rfl

theorem pages_in_range_firstPage :
    (run plainCodec System.empty (onePut ⟨0, [oneChunk]⟩)).shared.paging.entries.map EntryRow.pageNo = [0] ∧
      ∀ row ∈ (run plainCodec System.empty (onePut ⟨0, [oneChunk]⟩)).shared.paging.entries,
        PutUnder (onePut ⟨0, [oneChunk]⟩) row := by
  have hsmall : ∀ scope manifestId page now, .start (.putPage scope manifestId page now) ∈ onePut ⟨0, [oneChunk]⟩ →
      page.pageNo < 2 ^ 31 := by
    intro scope manifestId page now h
    rw [eq_of_start_mem_onePut h]
    decide
  refine ⟨by decide +kernel, fun row hrow => ?_⟩
  exact ((pages_in_range plainCodec (onePut ⟨0, [oneChunk]⟩) hsmall).1 row hrow).1

/-- A page with the number `2 ^ 31` is accepted for a session of one page, and it is stored under a negative number. -/
theorem pages_not_in_range_of_large :
    (run plainCodec System.empty (onePut ⟨2 ^ 31, [oneChunk]⟩)).shared.paging.entries.map EntryRow.pageNo = [-2 ^ 31] ∧
      (run plainCodec System.empty (onePut ⟨2 ^ 31, [oneChunk]⟩)).threads[1]?.map (·.code.value?) =
        some (some .done) := by
  decide +kernel

/-! ### Lengths of chunks -/

/-- Rows of a session with the same chunk hash have the same length. -/
def OneLength (w : World) : Prop :=
  ∀ a ∈ w.paging.entries, ∀ b ∈ w.paging.entries, a.scope = b.scope → a.manifestId = b.manifestId →
    a.chunkHash = b.chunkHash → a.length = b.length

/-- No chunk hash has two lengths in the page. -/
def PageAgrees (entries : List ChunkEntry) : Prop :=
  ∀ a ∈ entries, ∀ b ∈ entries, a.chunkHash = b.chunkHash → a.length = b.length

/-- A row that passed the check has the length of the stored rows of its chunk. -/
theorem length_eq_of_lengthConflict {db : Paging} {e : ChunkIndexRow}
    (hone : ∀ a ∈ db.entries, ∀ b ∈ db.entries, a.scope = b.scope → a.manifestId = b.manifestId →
      a.chunkHash = b.chunkHash → a.length = b.length)
    (h : lengthConflict db scope manifestId e = false) {row : EntryRow} (hrow : row ∈ db.entries)
    (hscope : row.scope = scope) (hmanifest : row.manifestId = manifestId) (hhash : row.chunkHash = e.chunkHash) :
    row.length = e.length := by
  unfold lengthConflict at h
  cases hfound : db.entries.find? (fun row => row.ofSession scope manifestId ∧ row.chunkHash = e.chunkHash) with
  | none =>
    have hnot := find?_eq_none.mp hfound row hrow
    simp [EntryRow.ofSession, hscope, hmanifest, hhash] at hnot
  | some prior =>
    have hprior : prior.ofSession scope manifestId = true ∧ prior.chunkHash = e.chunkHash := by
      simpa using find?_some hfound
    obtain ⟨hpriorScope, hpriorManifest⟩ := of_decide_eq_true hprior.1
    have hlength : prior.length = e.length := by
      rw [hfound] at h
      simpa using h
    rw [← hlength]
    exact hone row hrow prior (mem_of_find?_eq_some hfound) (hscope.trans hpriorScope.symm)
      (hmanifest.trans hpriorManifest.symm) (hhash.trans hprior.2.symm)

/-- The rows that the call stores have one length for each hash. -/
def Op.RowsAgree (op : Op) : Prop :=
  ∀ scope manifestId pageNo rows, op = .putPageEntries scope manifestId pageNo rows →
    ∀ a ∈ rows, ∀ b ∈ rows, a.chunkHash = b.chunkHash → a.length = b.length

theorem oneLength_exec (hop : op.RowsAgree) (h : OneLength w) (input : Input) : OneLength (exec input op w).1 := by
  unfold OneLength
  rcases tablesAfter_exec input op w with ⟨hentries, -⟩ | ⟨-, -, -, -, -, -, -, -, -, hentries, -⟩ |
    ⟨-, -, -, -, -, -, hentries, -⟩ | ⟨scope, manifestId, pageNo, rows, hput, -, hlengths, hentries, -⟩
  · rw [hentries]
    exact h
  · rw [hentries]
    exact h
  · rw [hentries]
    exact h
  · rw [hentries]
    -- a stored row with a new one, in either order
    have hcross : ∀ a ∈ w.paging.entries, ∀ e ∈ rows, a.scope = scope → a.manifestId = manifestId →
        a.chunkHash = e.chunkHash → a.length = e.length :=
      fun a ha e he => length_eq_of_lengthConflict h (hlengths e he) ha
    intro a ha b hb hscope hmanifest hhash
    rcases mem_append.mp ha with ha | ha
    · rcases mem_append.mp hb with hb | hb
      · exact h a ha b hb hscope hmanifest hhash
      · obtain ⟨e, he, rfl⟩ := mem_map.mp hb
        exact hcross a ha e he hscope hmanifest hhash
    · obtain ⟨d, hd, rfl⟩ := mem_map.mp ha
      rcases mem_append.mp hb with hb | hb
      · exact (hcross b hb d hd hscope.symm hmanifest.symm hhash.symm).symm
      · obtain ⟨e, he, rfl⟩ := mem_map.mp hb
        exact hop scope manifestId pageNo rows hput d hd e he hhash

theorem pageAgrees_indexRows {entries : List ChunkEntry} (h : PageAgrees entries) :
    ∀ a ∈ indexRows entries, ∀ b ∈ indexRows entries, a.chunkHash = b.chunkHash → a.length = b.length := by
  have hentry : ∀ row ∈ indexRows entries, ∃ c ∈ entries, c.chunkHash = row.chunkHash ∧ c.length = row.length := by
    intro row hrow
    obtain ⟨pair, hpair, rfl⟩ := mem_map.mp hrow
    exact ⟨pair.1, (mem_zipIdx' hpair).2 ▸ getElem_mem _, rfl, rfl⟩
  intro a ha b hb hhash
  obtain ⟨c, hc, hchash, hclength⟩ := hentry a ha
  obtain ⟨d, hd, hdhash, hdlength⟩ := hentry b hb
  rw [← hclength, ← hdlength]
  exact h c hc d hd (by rw [hchash, hdhash, hhash])

/-- **While no page has a hash with two lengths, a hash has one length in its session.** -/
theorem hash_has_one_length (codec : Codec) (events : List Event)
    (hpages : ∀ scope manifestId page now, .start (.putPage scope manifestId page now) ∈ events →
      page.validate codec = .ok () → PageAgrees page.entries) :
    OneLength (run codec System.empty events).shared := by
  have hcode : ∀ request, .start request ∈ events → ∀ w, OneLength w → Proc.Safe exec OneLength (fun _ _ => True)
      (fun (_ : Answer) _ => True) (fun _ _ => True) (code codec request) w := by
    intro request hstart w _
    have honly : Only Op.RowsAgree (code codec request) := by
      refine only_code ?_ ?_ ?_
      · rintro op - hstores scope manifestId pageNo rows rfl
        cases hstores
      · rintro m manifestId - scope algorithm oid size chunkCount pageCount scope' manifestId' pageNo rows hop
        cases hop
      · rintro scope manifestId page now rfl hvalid scope' manifestId' pageNo rows hop
        cases hop
        exact pageAgrees_indexRows (hpages scope manifestId page now hstart hvalid)
    exact honly.safe (fun op hop s hs input => ⟨oneLength_exec hop hs input, trivial⟩) w
  have hempty : Pool.Safe exec OneLength (fun _ _ => True) (fun _ (_ : Answer) _ => True) System.empty :=
    ⟨fun row hrow => absurd hrow not_mem_nil, fun thread hthread => absurd hthread not_mem_nil⟩
  have hsafe : Pool.Safe exec OneLength (fun _ _ => True) (fun _ (_ : Answer) _ => True)
      (run codec System.empty events) :=
    (Pool.Safe.run_rel (fun _ => trivial) (fun _ _ _ _ _ => trivial) hcode hempty).1
  exact hsafe.shared

theorem hash_has_one_length_onePage :
    OneLength (run plainCodec System.empty (onePut ⟨0, [oneChunk, oneChunk]⟩)).shared := by
  refine hash_has_one_length plainCodec (onePut ⟨0, [oneChunk, oneChunk]⟩) ?_
  intro scope manifestId page now hstart _
  rw [eq_of_start_mem_onePut hstart]
  intro a ha b hb _
  have ha : a = oneChunk := by simpa using ha
  have hb : b = oneChunk := by simpa using hb
  rw [ha, hb]

/-- A page with one chunk hash and two lengths is accepted, and its rows are stored. -/
theorem hash_has_two_lengths :
    (run plainCodec System.empty (onePut ⟨0, [oneChunk, ⟨1, 2, plainId, 2, compressionNone, none⟩]⟩)).shared.paging.entries
        = [⟨plainScope, plainId, 0, 0, 0, 1, plainId⟩, ⟨plainScope, plainId, 0, 1, 1, 2, plainId⟩] ∧
      (run plainCodec System.empty (onePut ⟨0, [oneChunk, ⟨1, 2, plainId, 2, compressionNone, none⟩]⟩)).threads[1]?.map
        (·.code.value?) = some (some .done) := by
  decide +kernel

end Media
end Mega
