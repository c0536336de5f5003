import CallFacts.Arch
import CallFacts.Diagnostic
import CallFacts.Fact
import CallFacts.FunctionAnalysis

/-!
# From observations to facts

All observations at one normalized address and register are joined. If the join is exact it is a fact;
if different exact values met, it is a conflict between the places whose addresses coincide.
-/

namespace CallFacts

/-- What has been observed at a site. -/
structure Evidence where
  site : Site
  /-- The function that was observed here first. -/
  function : String
  joined : Value
  /-- The different exact values, in the order in which they were seen. -/
  exacts : List (Word × Nat)
deriving DecidableEq, Repr

namespace Evidence

def ofValue (site : Site) (function : String) (v : Value) : Evidence := ⟨site, function, v, v.known?.toList⟩

/-- Both pieces of evidence at the site of the first. -/
def merge (old new : Evidence) : Evidence where
  site := old.site
  function := old.function
  joined := old.joined.join new.joined
  exacts := new.exacts.foldl (fun seen v => if v ∈ seen then seen else seen ++ [v]) old.exacts

/-- The evidence of single observed values, in order of their sites. -/
def gather (es : List Evidence) : List Evidence :=
  es.foldl (fun gathered e => insertByRank (fun e => e.site.rank) merge e gathered) []

def ofObservations (arch : Arch) (os : List (String × Observation)) : List Evidence :=
  os.flatMap fun (function, o) => o.values.map fun (r, v) => ofValue ⟨arch.normalize o.address, r⟩ function v

def fact? (e : Evidence) : Option Fact := e.joined.known?.map fun (value, bits) => ⟨e.site, value, bits⟩

def conflict? (e : Evidence) : Option Diagnostic :=
  if e.joined.known?.isNone ∧ 1 < e.exacts.length then
    some ⟨e.function, .aliasConflict e.site.address e.site.register (e.exacts.map Prod.fst)⟩
  else none

end Evidence

/-- The facts and the conflicts of observations, both in ascending order of address and register. -/
def extractFacts (arch : Arch) (os : List (String × Observation)) : FactTable × List Diagnostic :=
  let gathered := Evidence.gather (Evidence.ofObservations arch os)
  (.ofList (gathered.filterMap Evidence.fact?), gathered.filterMap Evidence.conflict?)

end CallFacts
