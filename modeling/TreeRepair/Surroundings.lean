import TreeRepair.Digest.Hash
import TreeRepair.FileTree.Access
import TreeRepair.Parsing.Archive

/-!
What the program takes from its surroundings: answers of grammars, hash functions, the format of
archives, and readings of the clock and fresh ids, each by its number. Facts about the program hold
for all such surroundings unless they say otherwise.
-/
namespace TreeRepair

/-- The functions and facts that do not change during a run. -/
structure Surroundings where
  grammars : Grammars
  /-- The hash of content keys and of proof records. -/
  contentHash : HashFunction
  /-- The hash of stored files. -/
  checksum : HashFunction
  archives : ArchiveFormat
  /-- The number of the process, part of temporary names. -/
  process : Nat
  /-- The reading of the clock that has a number, in milliseconds since the start of 1970. -/
  clock : Nat → Nat
  /-- The fresh id that has a number: 32 hexadecimal digits in groups of 8, 4, 4, 4 and 12. -/
  freshId : Nat → String

/-- What is known of the machine and the version control of a project. -/
structure HostFacts where
  /-- Whether there are uncommitted changes. -/
  dirty : Option Bool
  freeDiskBytes : Option Nat
  freeMemoryBytes : Option Nat
  /-- What is said when changes cannot be stashed. -/
  stashError : Option String
  deriving DecidableEq, Repr

/-- What a run changes outside its own memory: the files, how many clock readings and fresh ids it has
taken, and how often it has asked for changes to be stashed. -/
structure World where
  files : Listing
  draws : Nat
  stashes : Nat

namespace World

/-- The next reading of the clock. -/
def now (w : World) (env : Surroundings) : Nat := env.clock w.draws

/-- The next fresh id. -/
def freshId (w : World) (env : Surroundings) : String := env.freshId w.draws

/-- A world in which one more reading and id are taken. -/
def drawn (w : World) : World := { w with draws := w.draws + 1 }

/-- A world with other files. -/
def withFiles (w : World) (files : Listing) : World := { w with files := files }

/-- A world in which changes have been asked to be stashed once more. -/
def stashed (w : World) : World := { w with stashes := w.stashes + 1 }

end World

end TreeRepair
