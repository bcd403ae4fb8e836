import LeasedWork.Fleet.LoadStatus
import LeasedWork.Fleet.Work

/-!
# Planning an export

A supplier splits an export into queries, page by page. Planning creates a partition for each
query, counts the new ones and keeps the lease of the export alive. It ends with the page that
says so or that has no cursor for the next one, and starts over whenever an export is taken up
again; queries that exist already are not counted a second time.
-/

namespace LeasedWork

/-- A page of query identifiers. -/
structure Page where
  identifiers : List String
  isLast : Bool
  /-- What to ask the next page with. -/
  cursor : Option String
  deriving DecidableEq, Repr

/-- Whether planning ends with the page. -/
def Page.isFinal (p : Page) : Bool := p.isLast || p.cursor.isNone

/-- Gives the next page for an export, after the one with the given cursor. -/
abbrev NextPage (E : Interface) : Type :=
  Partition snapshotKind → Option String → Node.Action E Page

/-- The pages that a supplier has left, and how it refuses when there is none. -/
structure Supplier (E : Interface) where
  pages : List (NextPage E)
  refuse : Partition snapshotKind → Option String → Program (Node.interface E) Failure

namespace Planning

variable {E : Interface}

/-- The query of an identifier, which may name the collection first. -/
def queryOf (collection identifier : String) : String :=
  let whole := collection.toList ++ [keySeparator]
  if whole.isPrefixOf identifier.toList then String.ofList (identifier.toList.drop whole.length)
  else identifier

/-- Creates the queries of some identifiers and counts the new ones. -/
def createQueries (n : Node) (collection : String) (start : Instant) :
    List String → Node.Action E UInt64
  | [] => return 0
  | identifier :: rest => do
    let isNew ← n.create ((newQuery ⟨collection, queryOf collection identifier⟩).startingAt start)
    let others ← createQueries n collection start rest
    return (if isNew then 1 else 0) + others

/-- Plans a page's queries. -/
def planPage (n : Node) (p : Partition snapshotKind) (page : Page) :
    Node.Action E (Partition snapshotKind) := do
  let start ← Node.now
  let created ← createQueries n p.identity.collection start page.identifiers
  LoadStatus.update n p.identity.collection (.planned created page.isFinal)
  n.save p none

/-- Plans the supplier's pages from the one after a cursor on. -/
def planFrom (n : Node)
    (refuse : Partition snapshotKind → Option String → Program (Node.interface E) Failure)
    (p : Partition snapshotKind) (cursor : Option String) :
    List (NextPage E) → Program (Node.interface E) (Processed snapshotKind (Supplier E))
  | [] => do
    let failure ← refuse p cursor
    return ⟨.error failure, p, ⟨[], refuse⟩⟩
  | next :: rest => do
    match ← (next p cursor).run with
    | .error failure => return ⟨.error failure, p, ⟨rest, refuse⟩⟩
    | .ok page =>
      match ← (planPage n p page).run with
      | .error failure => return ⟨.error failure, p, ⟨rest, refuse⟩⟩
      | .ok p =>
        if page.isFinal then return ⟨.ok .completed, p, ⟨rest, refuse⟩⟩
        else planFrom n refuse p page.cursor rest

/-- Plans an export. -/
def process (n : Node) : Processor E snapshotKind (Supplier E) := fun p supplier =>
  planFrom n supplier.refuse p none supplier.pages

end Planning

end LeasedWork
