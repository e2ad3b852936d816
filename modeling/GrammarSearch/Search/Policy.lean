/-!
# Search policies

A policy bounds a search and says whether it suppresses duplicates. A
best-first search discards nodes deeper than `maxDepth`; every search ends when
it has expanded `maxExpansions` nodes, if that bound is set.
-/

namespace GrammarSearch

/-- What becomes of a node whose fingerprint was seen before. -/
inductive Dedup
  /-- It is dropped. -/
  | structural
  /-- It is kept like any other. -/
  | off
deriving DecidableEq, Inhabited

/-- The name of a mode. -/
def Dedup.name : Dedup → String
  | .structural => "Structural"
  | .off => "Off"

/-- The bounds of a search. -/
structure Policy where
  maxDepth : Nat
  maxExpansions : Option Nat
  dedup : Dedup
deriving DecidableEq

/-- Why no search can follow a policy. -/
structure PolicyError where
  detail : String
deriving DecidableEq

/-- What a diagnostic says. -/
def PolicyError.message (e : PolicyError) : String :=
  "unsupported policy mode: " ++ e.detail

namespace Policy

/-- Depth eight, no bound on expansions, no duplicates. -/
def default : Policy := ⟨8, none, .structural⟩

instance : Inhabited Policy := ⟨default⟩

/-- The default policy with another depth. -/
def bounded (maxDepth : Nat) : Policy := { default with maxDepth }

/-- A search that may expand nothing could not even test its root. -/
def validate (p : Policy) : Except PolicyError Unit :=
  if p.maxExpansions = some 0 then .error ⟨"max_expansions must be at least 1"⟩ else .ok ()

/-- The bound on expansions as notices show it. -/
def expansionsText (p : Policy) : String :=
  match p.maxExpansions with
  | none => "None"
  | some n => "Some(" ++ toString n ++ ")"

end Policy

end GrammarSearch
