import Termesh.Core.Path

/-!
# Search vocabulary

* `SearchRequest`, `SearchMatch`, `SearchEvent`: what is asked of a search, and what it reports;
* `SearchEvent.Terminal`: the events that end one.
-/

namespace Termesh

/-- A search. -/
structure SearchRequestId where
  val : ℕ
deriving DecidableEq, Repr

/-- What is searched for. -/
inductive SearchMode where
  | files
  | text
deriving DecidableEq, Repr

/-- A search. -/
structure SearchRequest where
  id : SearchRequestId
  root : Path
  mode : SearchMode
  query : String
  limit : ℕ
deriving DecidableEq

/-- A file, or a place in one. -/
structure SearchMatch where
  path : Path
  line : Option ℕ
  column : Option ℕ
  text : Option String
deriving DecidableEq

/-- What the search worker tells. -/
inductive SearchEvent where
  | started (id : SearchRequestId)
  | batch (id : SearchRequestId) (found : List SearchMatch)
  | finished (id : SearchRequestId) (truncated : Bool)
  | cancelled (id : SearchRequestId)
  | failed (id : SearchRequestId) (message : String) (incomplete : Bool)
deriving DecidableEq

/-- An event that ends the search of an id. -/
def SearchEvent.Terminal (id : SearchRequestId) : SearchEvent → Prop
  | finished i _ | cancelled i | failed i _ _ => i = id
  | _ => False

end Termesh
