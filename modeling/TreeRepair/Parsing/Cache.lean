import TreeRepair.Surroundings

/-!
A cache of parsed units with two tiers. The memory tier maps keys to units; the disk tier, if there is
one, keeps one archive for each key of hexadecimal digits in a directory. An archive that cannot be
read, or that holds a unit with another key, counts as absent.
-/
namespace TreeRepair

/-- The content key of a text for a file: the hash of content, identity and version, zero bytes in
between. -/
def contentKeyBytes (content : ByteArray) (identity version : String) : ByteArray :=
  let zero := ByteArray.mk #[0]
  content ++ zero ++ identity.toUTF8 ++ zero ++ version.toUTF8

/-- The version that content keys depend on. -/
def toolVersion : String := "0.4.0"

/-- The key of a file's content in caches. -/
def contentKey (hash : HashFunction) (content : ByteArray) (identity : String) : String :=
  hash (contentKeyBytes content identity toolVersion)

/-- Units by their keys, newest first, and the directory of archives if there is one. -/
structure ParseCache where
  directory : Option Location
  entries : List (String × ParsedUnit)

namespace ParseCache

/-- An empty cache over a directory of archives, or without one. -/
def fresh (directory : Option Location) : ParseCache := ⟨directory, []⟩

/-- An empty cache over a directory, which is made if need be. -/
def openAt (files : Listing) (directory : Location) : Except FileFault (ParseCache × Listing) :=
  match files.createDirs directory with
  | (.error fault, _) => .error fault
  | (.ok (), made) => .ok (fresh (some directory), made)

/-- The number of keys in the memory tier. -/
def size (c : ParseCache) : Nat := c.entries.length

/-- Whether a key may name an archive: hexadecimal digits, at least one. -/
def isArchiveKey (key : String) : Bool := !key.isEmpty && key.toList.all Digest.isHexDigit

/-- What the names of archives end with. -/
def archiveEnding : String := ".rkyv"

/-- The place of a key's archive. -/
def archive? (c : ParseCache) (key : String) : Option Location :=
  if isArchiveKey key then c.directory.map (· ++ [key ++ archiveEnding]) else none

/-- The place where a key's archive is written before it is moved. -/
def draft? (c : ParseCache) (process : Nat) (key : String) : Option Location :=
  if isArchiveKey key then
    c.directory.map (· ++ [key ++ archiveEnding ++ ".tmp-" ++ toString process])
  else none

/-- The unit that a key's archive holds, if it is one with that key. -/
def load? (c : ParseCache) (env : Surroundings) (files : Listing) (key : String) : Option ParsedUnit :=
  match c.archive? key with
  | none => none
  | some place =>
    match files.read place with
    | .error _ => none
    | .ok bytes =>
      match env.archives.decode bytes with
      | none => none
      | some u => if u.key = key then some u else none

/-- Files with the archive of a unit, as far as it can be written. -/
def store (c : ParseCache) (env : Surroundings) (files : Listing) (u : ParsedUnit) : Listing :=
  match c.archive? u.key, c.draft? env.process u.key with
  | some place, some draft =>
    match files.write draft (env.archives.encode u) with
    | .error _ => files
    | .ok written =>
      match written.rename draft place with
      | .error _ => written
      | .ok moved => moved
  | _, _ => files

/-- The memory tier with a unit under a key. -/
def remember (c : ParseCache) (key : String) (u : ParsedUnit) : ParseCache :=
  ⟨c.directory, (key, u) :: c.entries.filter (·.1 != key)⟩

/-- Puts a unit into both tiers. -/
def insert (c : ParseCache) (env : Surroundings) (files : Listing) (u : ParsedUnit) :
    ParseCache × Listing :=
  (c.remember u.key u, c.store env files u)

/-- The unit of a key, from memory or else from its archive; one from an archive is remembered. -/
def get? (c : ParseCache) (env : Surroundings) (files : Listing) (key : String) :
    Option (ParsedUnit × ParseCache) :=
  match c.entries.lookup key with
  | some u => some (u, c)
  | none => (c.load? env files key).map fun u => (u, c.remember key u)

end ParseCache

end TreeRepair
