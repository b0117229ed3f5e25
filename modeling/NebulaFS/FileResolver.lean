import NebulaFS.IndexManager

/-!
# The file resolver

`filesystem/FileResolver.cpp`, as far as patterns go. `matchGlob` walks over pattern and string with one
index each. After a star it notes where the star stands and how far the string was, and after a mismatch
it goes back to the last star and lets it take one character more. A character of the string that is equal
to that of the pattern is taken first of all, a star of the pattern before a star of the string included.
-/

namespace NebulaFS

namespace FileResolver

def asterisk : UInt8 := 0x2A

def questionMark : UInt8 := 0x3F

/-- The locals of `matchGlob`. `starPos` is `none` for `std::string::npos`. -/
structure GlobState where
  pi : Nat := 0
  si : Nat := 0
  starPos : Option Nat := none
  matchPos : Nat := 0

/-- One round of the loop, with `none` for `return false`. -/
def globStep (pattern str : Bytes) (state : GlobState) : Option GlobState :=
  let c := pattern[state.pi]?
  if c.isSome ∧ (c = some questionMark ∨ c = str[state.si]?) then
    some { state with pi := state.pi + 1, si := state.si + 1 }
  else if c = some asterisk then
    some { pi := state.pi + 1, si := state.si, starPos := some state.pi, matchPos := state.si }
  else
    match state.starPos with
    | some starPos =>
        some { pi := starPos + 1
               si := state.matchPos + 1
               starPos := some starPos
               matchPos := state.matchPos + 1 }
    | none => none

/-- The stars that are left, and whether they are all of the pattern. -/
def globRest (pattern : Bytes) (pi : Nat) : Bool :=
  pi + ((pattern.drop pi).takeWhile (· = asterisk)).length = pattern.length

def globLoop (pattern str : Bytes) : (fuel : Nat) → GlobState → Option Bool
  | 0, _ => none
  | fuel + 1, state =>
      if state.si < str.length then
        match globStep pattern str state with
        | none => some false
        | some next => globLoop pattern str fuel next
      else some (globRest pattern state.pi)

/-- `none` would be a loop that has not ended after every place a star can stand and every start it can
have. -/
def matchGlob (pattern str : Bytes) : Option Bool :=
  globLoop pattern str ((pattern.length + str.length + 1) * (str.length + 1)) {}

/-- `resolve` of an id. -/
def resolveId (index : IndexManager) (id : EntryID) : Option ArchiveEntry :=
  match index.findById id with
  | none => none
  | some entry =>
      some { id := entry.entryId
             offset := entry.offset
             storedSize := entry.size
             checksum := entry.checksum }

/-- The resolver without an index finds nothing. -/
def glob (index : Option IndexManager) (pattern : Bytes) : Option (List ArchiveEntry) :=
  match index with
  | none => some []
  | some index =>
      index.pathMap.entries.filterMapM fun path => do
        let matched ← matchGlob pattern path.1
        return if matched then resolveId index path.2 else none

end FileResolver

end NebulaFS
