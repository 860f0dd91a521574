/-
# The closure of a trace publication

A publication of a trace stream is prepared outside of any lock. From the pack
that was received and from the objects already published, the closure of the
proposed tip is walked: its commits, trees and blobs, each with its expected type.

An id names one object, its `content`. What one preparation finds of it, in the
pack or among the published objects at the time of the query, is part of `Reads`.
The files of the spool are the fields of `Builder`.

Key definitions: `Reads`, `Builder`, `Builder.closure`.
-/
import Mega.Traces.RawLinks

namespace Mega
namespace Traces

inductive HashKind where
  | sha1
  | sha256
deriving DecidableEq

def HashKind.width : HashKind → ℕ
  | .sha1 => 40
  | .sha256 => 64

/-- What one preparation finds. -/
structure Reads where
  kind : HashKind
  /-- the ids of the pack's objects -/
  incoming : List String
  /-- whether an object was visible in the stream when it was asked for -/
  published : String → Bool
  /-- whether the bytes of a published object could be read -/
  readable : String → Bool

/-! ### The builder -/

/-- `TracesProtocolLimits::MAX_TREE_DEPTH`. -/
def maxTreeDepth : ℕ := 64

structure Visit where
  oid : String
  kind : RawObjectType
  depth : ℕ

/-- The files of the spool, and the pack's objects that were met. -/
structure Builder where
  seen : String → Option (RawObjectType × ℕ)
  commitFiles : String → Option (String × List String)
  treeFiles : String → Option (List RawTreeEntry)
  membership : List String
  /-- those of them that were not published -/
  fresh : List String

def Builder.empty : Builder := ⟨fun _ => none, fun _ => none, fun _ => none, [], []⟩

variable (content : String → Option VerifiedRawObject) (reads : Reads)

namespace Builder

/-- The bytes of an object of the expected type, from the pack or from what is published. -/
def object (builder : Builder) (oid : String) (expected : RawObjectType) :
    Except TracesError (Builder × List UInt8) :=
  match content oid with
  | none => .error integrity
  | some raw =>
    if raw.objectType ≠ expected then .error integrity
    else if oid ∈ reads.incoming then
      if oid ∈ builder.membership then .ok (builder, raw.bytes)
      else .ok ({ builder with
        membership := builder.membership ++ [oid]
        fresh := if reads.published oid then builder.fresh else builder.fresh ++ [oid] }, raw.bytes)
    else if reads.published oid && reads.readable oid then .ok (builder, raw.bytes)
    else .error integrity

/-- Records a commit, and what to visit next. -/
def visitCommit (builder : Builder) (visit : Visit) (previous : Bool) (bytes : List UInt8) :
    Except TracesError (Builder × List Visit) :=
  match verifiedCommitLinks reads.kind.width bytes with
  | none => .error .invalidParameter
  | some links =>
    if 1 < links.parents.length then .error integrity
    else
      let builder :=
        if previous then builder
        else { builder with
          commitFiles := Function.update builder.commitFiles visit.oid (some (links.tree, links.parents)) }
      .ok (builder, ⟨links.tree, .tree, 1⟩ :: links.parents.map fun oid => ⟨oid, .commit, 0⟩)

/-- Records a tree, and what to visit next. Gitlinks are recorded and not followed. -/
def visitTree (builder : Builder) (visit : Visit) (previous : Bool) (bytes : List UInt8) :
    Except TracesError (Builder × List Visit) :=
  match verifiedTreeEntries (reads.kind.width / 2) bytes with
  | none => .error .invalidParameter
  | some entries =>
    let builder :=
      if previous then builder
      else { builder with treeFiles := Function.update builder.treeFiles visit.oid (some entries) }
    .ok (builder, entries.filterMap fun entry =>
      match entry.mode with
      | .tree => some ⟨entry.oid, .tree, visit.depth + 1⟩
      | .blob => some ⟨entry.oid, .blob, visit.depth⟩
      | .gitlink => none)

/-- One object of the queue that is new, or met deeper than before. -/
def visitObject (builder : Builder) (visit : Visit) (previous : Bool) :
    Except TracesError (Builder × List Visit) :=
  match builder.object content reads visit.oid visit.kind with
  | .error e => .error e
  | .ok (builder, bytes) =>
    let visited :=
      match visit.kind with
      | .commit => builder.visitCommit reads visit previous bytes
      | .tree => builder.visitTree reads visit previous bytes
      | .blob => .ok (builder, [])
      | .tag => .error integrity
    match visited with
    | .error e => .error e
    | .ok (builder, next) =>
      .ok ({ builder with seen := Function.update builder.seen visit.oid (some (visit.kind, visit.depth)) }, next)

def closure : ℕ → List Visit → Builder → Except TracesError Builder
  | _, [], builder => .ok builder
  | 0, _ :: _, _ => .error .unfinished
  | fuel + 1, visit :: queue, builder =>
    if maxTreeDepth < visit.depth then .error .responseBudget
    else
      match builder.seen visit.oid with
      | some (kind, depth) =>
        if kind ≠ visit.kind then .error integrity
        else if visit.depth ≤ depth then closure fuel queue builder
        else
          match builder.visitObject content reads visit true with
          | .error e => .error e
          | .ok (builder, next) => closure fuel (queue ++ next) builder
      | none =>
        match builder.visitObject content reads visit false with
        | .error e => .error e
        | .ok (builder, next) => closure fuel (queue ++ next) builder

end Builder

end Traces
end Mega
