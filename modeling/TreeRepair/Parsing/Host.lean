import TreeRepair.Parsing.Cache
import TreeRepair.Syntax.Parse

/-!
Parsing through a cache. A `ParserHost` answers a text that it has met for the same file from its
cache, and counts what it parses, what it finds, and the errors of what it parses.
-/
namespace TreeRepair

/-- The counts of a host. -/
structure ParseMetrics where
  filesParsed : Nat
  cacheHits : Nat
  /-- Errors of the texts parsed, those found in the cache not counted. -/
  totalErrors : Nat
  deriving DecidableEq, Repr

/-- A cache, a limit for what is kept of refused texts, and counts. -/
structure ParserHost where
  cache : ParseCache
  recoveryLimit : Nat
  metrics : ParseMetrics

namespace ParserHost

/-- A host that has parsed nothing. -/
def fresh (cache : ParseCache) (recoveryLimit : Nat) : ParserHost := ⟨cache, recoveryLimit, ⟨0, 0, 0⟩⟩

/-- Counts a unit found in the cache. -/
def countHit (h : ParserHost) (cache : ParseCache) : ParserHost :=
  ⟨cache, h.recoveryLimit, { h.metrics with cacheHits := h.metrics.cacheHits + 1 }⟩

/-- Counts a unit parsed. -/
def countMiss (h : ParserHost) (cache : ParseCache) (u : ParsedUnit) : ParserHost :=
  ⟨cache, h.recoveryLimit,
    { h.metrics with
      filesParsed := h.metrics.filesParsed + 1
      totalErrors := h.metrics.totalErrors + u.errors.length }⟩

/-- What parsing gives: the unit, the host behind it, and the files with the unit's archive. -/
structure Parsed where
  unit : ParsedUnit
  host : ParserHost
  files : Listing

/-- The unit of a text for a file. -/
def parse (h : ParserHost) (env : Surroundings) (files : Listing) (file text : String) : Parsed :=
  let key := contentKey env.contentHash text.toUTF8 file
  match h.cache.get? env files key with
  | some (u, cache) => ⟨u, h.countHit cache, files⟩
  | none =>
    let u := parseText env.grammars h.recoveryLimit file key text
    let (cache, stored) := h.cache.insert env files u
    ⟨u, h.countMiss cache u, stored⟩

/-- The unit of the file with a key below a root, its bytes read as text with replacement characters
for what is not UTF-8. -/
def parseFile (h : ParserHost) (env : Surroundings) (files : Listing) (root : Location) (key : String) :
    Except FileFault Parsed :=
  match files.entryAt (root.join key) with
  | .error fault => .error fault
  | .ok (.dir _) => .error .noDevice
  | .ok (.file bytes) => .ok (h.parse env files key (Text.decodeLossy bytes))

end ParserHost

end TreeRepair
