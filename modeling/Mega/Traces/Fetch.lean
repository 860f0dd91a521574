/-
# Fetching trace objects

A fetch of a trace stream walks the whole graph below the stream's tip into a
spool on disk, one directory for each object: its walk state and type, its
bytes and its edges. The walk is depth first with enter and leave frames, so that
it meets a cycle as an object that is still open. Only then are the haves and
the wants looked up, in the spool: the closure of the haves is marked as
excluded, and the closure of the wants is collected, without what is excluded,
into the list that the stream of the response reads its objects from.

The bytes of stored objects are data of `Stream`. A spool is the function from an
object's id to its directory.

Key definitions: `Stream`, `Spool.visit`, `walk`, `selectClosure`,
`fetchIntoSpool`, `TraceFetchStream.next`.
-/
import Mega.Traces.RawLinks

namespace Mega
namespace Traces

/-! ### The granted stream -/

/-- A granted stream: its tip, the objects that are visible in it and their bytes. -/
structure Stream where
  /-- the length of an id of the stream's hash kind, in hexadecimal digits -/
  width : ℕ
  tipOid : Option String
  visible : List String
  stored : String → Option VerifiedRawObject
  /-- whether the bytes hash to the id -/
  verified : String → VerifiedRawObject → Bool

namespace Stream

variable (stream : Stream)

def canonicalOid (oid : String) : Except TracesError String :=
  if oid.utf8ByteSize ≠ stream.width ∨ oid.toList.all isAsciiHexdigit = false then .error .invalidParameter
  else .ok (toAsciiLowercase oid)

def readVerifiedRaw (oid : String) : Except TracesError (Option VerifiedRawObject) :=
  match stream.stored oid with
  | none => .ok none
  | some raw =>
    if maxObjectBytes < raw.bytes.length then .error .responseBudget
    else if stream.verified oid raw then .ok (some raw)
    else .error integrity

/-- Where an object links to, and the type each link requires. The first link of a commit is its tree. -/
def edgesOf (raw : VerifiedRawObject) : Except TracesError (List Ref) :=
  match raw.objectType with
  | .commit =>
    match verifiedCommitLinks stream.width raw.bytes with
    | none => .error integrity
    | some links => .ok links.refs
  | .tree =>
    match verifiedTreeEntries (stream.width / 2) raw.bytes with
    | none => .error integrity
    | some entries => .ok (entries.filterMap RawTreeEntry.ref?)
  | .blob => .ok []
  | .tag => .error integrity

end Stream

/-! ### The spool -/

structure Frame where
  oid : String
  kind : RawObjectType
  leave : Bool
deriving DecidableEq

inductive NodeState where
  /-- byte 1 of the state file: entered and not yet left -/
  | entered
  /-- byte 2 -/
  | left
deriving DecidableEq

inductive Marker where
  | excluded
  | selected
deriving DecidableEq

/-- The directory of one object. -/
structure Node where
  state : NodeState
  kind : RawObjectType
  payload : List UInt8
  edges : List Ref
  /-- the marker files that are there -/
  marked : Marker → Bool

abbrev Spool : Type := String → Option Node

namespace Spool

/-- The spool after a frame of an object that has a directory; nothing if it has none yet. -/
def visit (spool : Spool) (frame : Frame) : Except TracesError (Option Spool) :=
  match spool frame.oid with
  | some node =>
    if node.kind ≠ frame.kind then .error integrity
    else if frame.leave = true ∧ node.state = .entered then
      .ok (some (Function.update spool frame.oid (some { node with state := .left })))
    else if node.state ≠ .left then .error integrity
    else .ok (some spool)
  | none => if frame.leave then .error integrity else .ok none

/-- Sets a marker; nothing if it was set. -/
def mark (spool : Spool) (oid : String) (marker : Marker) : Except TracesError (Option Spool) :=
  match spool oid with
  | none => .error ioError
  | some node =>
    if node.marked marker then .ok none
    else .ok (some (Function.update spool oid (some { node with marked := Function.update node.marked marker true })))

end Spool

/-! ### The walk -/

variable (stream : Stream)

/-- The directory written for an object that is entered. -/
def enterNode (frame : Frame) : Except TracesError Node :=
  if frame.oid ∉ stream.visible then .error integrity
  else do
    match ← stream.readVerifiedRaw frame.oid with
    | none => .error integrity
    | some raw =>
      if raw.objectType ≠ frame.kind then .error integrity
      else do
        let edges ← stream.edgesOf raw
        .ok { state := .entered, kind := frame.kind, payload := raw.bytes, edges, marked := fun _ => false }

/-- The frames of a list of edges as they stand on the stack, the last pushed first. -/
def edgeFrames (edges : List Ref) : List Frame :=
  edges.reverse.map fun edge => { oid := edge.1, kind := edge.2, leave := false }

def walk : ℕ → List Frame → Spool → Except TracesError Spool
  | _, [], spool => .ok spool
  | 0, _ :: _, _ => .error .unfinished
  | fuel + 1, frame :: stack, spool =>
    match spool.visit frame with
    | .error e => .error e
    | .ok (some spool) => walk fuel stack spool
    | .ok none =>
      match enterNode stream frame with
      | .error e => .error e
      | .ok node =>
        walk fuel (edgeFrames node.edges ++ { frame with leave := true } :: stack)
          (Function.update spool frame.oid (some node))

/-! ### Selection -/

/-- The spool, and the frames written to the `result` file with their count. -/
structure Selection where
  spool : Spool
  result : List Frame
  count : ℕ

def selectClosure (marker : Marker) : ℕ → List Frame → Selection → Except TracesError Selection
  | _, [], selection => .ok selection
  | 0, _ :: _, _ => .error .unfinished
  | fuel + 1, frame :: stack, selection =>
    if marker = .selected ∧ ((selection.spool frame.oid).any fun node => node.marked .excluded) = true then
      selectClosure marker fuel stack selection
    else
      match selection.spool.mark frame.oid marker with
      | .error e => .error e
      | .ok none => selectClosure marker fuel stack selection
      | .ok (some spool) =>
        let selection :=
          if marker = .selected then
            { spool, result := selection.result ++ [frame], count := selection.count + 1 }
          else { selection with spool }
        match spool frame.oid with
        | none => .error ioError
        | some node => selectClosure marker fuel (edgeFrames node.edges ++ stack) selection

/-- The loop over the haves, and then over the wants. -/
def selectAll (fuel : ℕ) (marker : Marker) : List String → Selection → Except TracesError Selection
  | [], selection => .ok selection
  | rawOid :: ids, selection =>
    match stream.canonicalOid rawOid with
    | .error e => if marker = .selected then .error e else selectAll fuel marker ids selection
    | .ok oid =>
      match selection.spool oid with
      | some { state := .left, kind, .. } =>
        match selectClosure marker fuel [{ oid, kind, leave := false }] selection with
        | .error e => .error e
        | .ok selection => selectAll fuel marker ids selection
      | _ => if marker = .selected then .error .unknownScope else selectAll fuel marker ids selection

/-! ### The response -/

structure TraceFetchStream where
  result : List Frame
  spool : Spool
  count : ℕ
  remaining : ℕ

structure FetchRawObject where
  oid : String
  objectType : RawObjectType
  payload : List UInt8
deriving DecidableEq

/-- The object ids that an object links to, as far as it can be read. -/
def Stream.targets (oid : String) : List String :=
  match stream.readVerifiedRaw oid with
  | .ok (some raw) =>
    match stream.edgesOf raw with
    | .ok edges => edges.map (·.1)
    | .error _ => []
  | _ => []

/-- More steps than any loop of a fetch takes: an object is entered once. -/
def Stream.steps : ℕ := 1 + (stream.visible.flatMap fun oid => oid :: stream.targets oid).length

def fetchIntoSpool (wants haves : List String) : Except TracesError TraceFetchStream :=
  if wants = [] then .ok { result := [], spool := fun _ => none, count := 0, remaining := 0 }
  else do
    let tip ← stream.tipOid.elim (.error .unknownScope) .ok
    let root ← stream.canonicalOid tip
    let spool ← walk stream stream.steps [{ oid := root, kind := .commit, leave := false }] fun _ => none
    let selection ← selectAll stream stream.steps .excluded haves { spool, result := [], count := 0 }
    let selection ← selectAll stream stream.steps .selected wants selection
    .ok { result := selection.result, spool := selection.spool, count := selection.count,
          remaining := selection.count }

namespace TraceFetchStream

/-- The next object, and the stream after it. -/
def next (response : TraceFetchStream) : Except TracesError (Option (FetchRawObject × TraceFetchStream)) :=
  if response.remaining = 0 then .ok none
  else
    match response.result with
    | [] => .error integrity
    | frame :: result =>
      match response.spool frame.oid with
      | none => .error ioError
      | some node =>
        if maxObjectBytes < node.payload.length then .error integrity
        else .ok (some ({ oid := frame.oid, objectType := frame.kind, payload := node.payload },
          { response with result, remaining := response.remaining - 1 }))

/-- All objects of the response: `next` until it gives nothing. -/
def drain : ℕ → TraceFetchStream → Except TracesError (List FetchRawObject)
  | 0, _ => .error .unfinished
  | fuel + 1, response =>
    match response.next with
    | .error e => .error e
    | .ok none => .ok []
    | .ok (some (object, response)) =>
      match drain fuel response with
      | .error e => .error e
      | .ok objects => .ok (object :: objects)

/-- The objects that a caller receives, who asks for as many as announced and once more. -/
def objects (response : TraceFetchStream) : Except TracesError (List FetchRawObject) :=
  response.drain (response.count + 1)

end TraceFetchStream

end Traces
end Mega
