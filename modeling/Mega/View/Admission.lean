/-
# Admitting views

`jupiter/storage/view_admission.rs`: `admit` (here `admitView`) takes a request to register a
filter, possibly under a view name, or to warm up a filter again whose
projection was reclaimed. Under the register lock, in one transaction, it finds
the filter, decides whether it starts cold and whether the name needs a new
version, checks the requester's rate and the two quotas, and writes the filter,
the version and the register log.

Between admissions the state of a filter (how far it is projected, since when it
is ready or warming up) changes in any way; its definition does not, and rows of
filters and views are never deleted.

Times are in microseconds. `generate_id` is a parameter of the transaction: an
id that is taken fails the insert.

Key definitions: `Tables`, `Situation`, `admitView`, `Event`, `run`.
-/
import Mega.Lib.Run
import Mega.Lib.Table
import Mega.View.Filter

namespace Mega
namespace Admission

open Table View

structure FilterDefinition where
  filterId : Text
  canonicalSpec : Text
  algoVersion : ℤ
  objectFormat : Text
  srcPaths : List Text
  pushEnabled : Bool
deriving DecidableEq

inductive AdmitMode where
  | register (definition : FilterDefinition) (name : Option Text) (requester : Text)
  | rewarm (filterPk : ℕ)
deriving DecidableEq

structure AdmitLimits where
  maxFilters : ℕ
  maxConcurrentColdStarts : ℕ
  registerRatePerToken : ℕ

inductive RejectReason where
  | maxFilters
  | coldStartSlots
  | rate
deriving DecidableEq

/-- `retryAfter` is in seconds. -/
inductive AdmitOutcome where
  | admitted (version : Option ℕ) (ready : Bool)
  | idempotent (version : Option ℕ) (ready : Bool)
  | rejected (reason : RejectReason) (retryAfter : ℕ)
deriving DecidableEq

inductive AdmitError where
  /-- "view filter … not found" -/
  | notFound (filterPk : ℕ)
  /-- The filter insert met a row with its `filter_id`. -/
  | recordNotInserted
  /-- An insert met a row with its primary key or unique columns. -/
  | uniqueViolation
  /-- The next version does not fit its `i32`. -/
  | versionOverflow
deriving DecidableEq

/-- A row of `mega_view_filter`. -/
structure FilterRow where
  id : ℕ
  definition : FilterDefinition
  projectedSeq : ℤ
  readySeq : Option ℤ
  warmingSince : Option ℕ
  lastAccessAt : Option ℕ
  createdAt : ℕ
deriving DecidableEq

/-- A row of `mega_view`. -/
structure ViewRow where
  id : ℕ
  name : Text
  version : ℕ
  filterPk : ℕ
  createdBy : Text
  createdAt : ℕ
deriving DecidableEq

/-- A row of `mega_view_register_log`. -/
structure LogRow where
  requester : Text
  createdAt : ℕ
deriving DecidableEq

structure Tables where
  filters : List FilterRow
  views : List ViewRow
  registerLog : List LogRow
deriving DecidableEq

/-! ### What the transaction reads -/

def AdmitMode.existingFilter (filters : List FilterRow) : AdmitMode → Option FilterRow
  | .register definition _ _ => filters.find? fun filter => filter.definition.filterId == definition.filterId
  | .rewarm filterPk => filters.find? fun filter => filter.id == filterPk

def AdmitMode.name : AdmitMode → Option Text
  | .register _ name _ => name
  | .rewarm _ => none

def AdmitMode.requester : AdmitMode → Option Text
  | .register _ _ requester => some requester
  | .rewarm _ => none

/-- A filter without a projection, and with none under way. -/
def FilterRow.cold (filter : FilterRow) : Bool :=
  filter.projectedSeq == 0 && filter.readySeq.isNone && filter.warmingSince.isNone

def FilterRow.warming (filter : FilterRow) : Bool := filter.warmingSince.isSome

def FilterRow.active (filter : FilterRow) : Bool := filter.warmingSince.isSome || 0 < filter.projectedSeq

/-- The versions of a view name. -/
def versionsOf (views : List ViewRow) (name : Text) : List ViewRow := views.filter fun view => view.name == name

/-- What a request meets in the tables. -/
structure Situation where
  existing : Option FilterRow
  latest : Option ViewRow
  coldStart : Bool
  ready : Bool
  needsVersion : Bool

def needsVersion (name : Option Text) (existing : Option FilterRow) (latest : Option ViewRow) : Bool :=
  match name, existing, latest with
  | some _, some filter, some view => filter.id != view.filterPk
  | some _, _, none => true
  | some _, none, some _ => true
  | none, _, _ => false

def situation (tables : Tables) (mode : AdmitMode) : Situation :=
  let existing := mode.existingFilter tables.filters
  let latest := mode.name.bind fun name => topBy (·.version) (versionsOf tables.views name)
  { existing
    latest
    coldStart := existing.all (·.cold)
    ready := existing.any (·.readySeq.isSome)
    needsVersion := needsVersion mode.name existing latest }

/-! ### Rate and quotas -/

def second : ℕ := 1000000

def rejectRetryAfter : ℕ := 30

def registerRateWindowSecs : ℕ := 3600

/-- Within the window before `now`. -/
def LogRow.recent (now : ℕ) (row : LogRow) : Bool := now < row.createdAt + registerRateWindowSecs * second

/-- The requester's registrations in the window: how many, and in how many
seconds the first of them leaves it. -/
def registerRateWindow (log : List LogRow) (requester : Text) (now : ℕ) : ℕ × ℕ :=
  let rows := log.filter fun row => row.requester == requester && row.recent now
  let retryAfter := (rows.map (·.createdAt)).min?.elim registerRateWindowSecs fun first =>
    min registerRateWindowSecs ((first + registerRateWindowSecs * second - now + (second - 1)) / second)
  (rows.length, retryAfter)

/-- Why a request is rejected, if it is. -/
def rejection (tables : Tables) (mode : AdmitMode) (limits : AdmitLimits) (now : ℕ) (coldStart : Bool) :
    Option (RejectReason × ℕ) :=
  let rate := mode.requester.bind fun requester =>
    let window := registerRateWindow tables.registerLog requester now
    if limits.registerRatePerToken ≤ window.1 then some (.rate, window.2) else none
  let quota :=
    if coldStart then
      if limits.maxFilters ≤ tables.filters.countP FilterRow.active then some (.maxFilters, rejectRetryAfter)
      else if limits.maxConcurrentColdStarts ≤ tables.filters.countP FilterRow.warming then
        some (.coldStartSlots, rejectRetryAfter)
      else none
    else none
  rate.or quota

/-! ### What the transaction writes -/

def insertFilter (filters : List FilterRow) (definition : FilterDefinition) (newId now : ℕ) :
    Except AdmitError (ℕ × List FilterRow) :=
  if filters.any fun filter => filter.definition.filterId == definition.filterId then .error .recordNotInserted
  else if filters.any fun filter => filter.id == newId then .error .uniqueViolation
  else .ok (newId, filters ++ [⟨newId, definition, 0, none, some now, none, now⟩])

def FilterRow.warmedAt (now : ℕ) (filter : FilterRow) : FilterRow := { filter with warmingSince := some now }

/-- Starts the warm-up of a filter that is there. -/
def warmFilter (filters : List FilterRow) (filterPk now : ℕ) : List FilterRow :=
  updateKey FilterRow.id filterPk (FilterRow.warmedAt now) filters

/-- The filter of the request, there and warming up or further. -/
def placeFilter (filters : List FilterRow) (mode : AdmitMode) (found : Situation) (newId now : ℕ) :
    Except AdmitError (ℕ × List FilterRow) :=
  match found.existing, mode with
  | some filter, _ =>
    if found.coldStart then .ok (filter.id, warmFilter filters filter.id now) else .ok (filter.id, filters)
  | none, .register definition _ _ => insertFilter filters definition newId now
  | none, .rewarm filterPk => .error (.notFound filterPk)

def maxVersion : ℕ := 2147483647

def insertView (views : List ViewRow) (name requester : Text) (latest : Option ViewRow) (filterPk newId now : ℕ) :
    Except AdmitError (ℕ × List ViewRow) :=
  let version := latest.elim 1 (·.version + 1)
  if maxVersion < version then .error .versionOverflow
  else if views.any fun view => view.id == newId || (view.name == name && view.version == version) then
    .error .uniqueViolation
  else .ok (version, views ++ [⟨newId, name, version, filterPk, requester, now⟩])

/-- The version the request ends up with. -/
def placeVersion (views : List ViewRow) (mode : AdmitMode) (found : Situation) (filterPk newId now : ℕ) :
    Except AdmitError (Option ℕ × List ViewRow) :=
  match mode with
  | .register _ (some name) requester =>
    if found.needsVersion then
      (insertView views name requester found.latest filterPk newId now).map fun inserted =>
        (some inserted.1, inserted.2)
    else .ok (found.latest.map (·.version), views)
  | _ => .ok (found.latest.map (·.version), views)

def logRegistration (log : List LogRow) (mode : AdmitMode) (now : ℕ) : List LogRow :=
  match mode.requester with
  | some requester => (log ++ [LogRow.mk requester now]).filter fun row => row.requester != requester || row.recent now
  | none => log

/-- The ids that `generate_id` gives a transaction. -/
structure NewIds where
  filter : ℕ
  view : ℕ

/-- The transaction of `admit`. Whatever fails rolls it back. -/
def admitView (tables : Tables) (mode : AdmitMode) (limits : AdmitLimits) (now : ℕ) (newIds : NewIds) :
    Except AdmitError AdmitOutcome × Tables :=
  let found := situation tables mode
  match mode, found.existing with
  | .rewarm filterPk, none => (.error (.notFound filterPk), tables)
  | _, _ =>
    if !found.coldStart && !found.needsVersion then
      (.ok (.idempotent (found.latest.map (·.version)) found.ready), tables)
    else
      match rejection tables mode limits now found.coldStart with
      | some (reason, retryAfter) => (.ok (.rejected reason retryAfter), tables)
      | none =>
        match placeFilter tables.filters mode found newIds.filter now with
        | .error e => (.error e, tables)
        | .ok (filterPk, filters) =>
          match placeVersion tables.views mode found filterPk newIds.view now with
          | .error e => (.error e, tables)
          | .ok (version, views) =>
            (.ok (.admitted version found.ready),
              { filters, views, registerLog := logRegistration tables.registerLog mode now })

/-! ### The system -/

inductive Event where
  | admitView (mode : AdmitMode) (limits : AdmitLimits) (now : ℕ) (newIds : NewIds)
  /-- Anything that changes the state of a filter: a batch of its projection,
  its becoming ready, its reclamation, an access. -/
  | setState (filterPk : ℕ) (projectedSeq : ℤ) (readySeq : Option ℤ) (warmingSince lastAccessAt : Option ℕ)

def setState (filters : List FilterRow) (filterPk : ℕ) (projectedSeq : ℤ) (readySeq : Option ℤ)
    (warmingSince lastAccessAt : Option ℕ) : List FilterRow :=
  updateKey FilterRow.id filterPk
    (fun filter => { filter with projectedSeq, readySeq, warmingSince, lastAccessAt }) filters

def step (tables : Tables) : Event → Tables
  | .admitView mode limits now newIds => (admitView tables mode limits now newIds).2
  | .setState filterPk projectedSeq readySeq warmingSince lastAccessAt =>
    { tables with filters := setState tables.filters filterPk projectedSeq readySeq warmingSince lastAccessAt }

def run (tables : Tables) (events : List Event) : Tables := Run.run step tables events

end Admission
end Mega
