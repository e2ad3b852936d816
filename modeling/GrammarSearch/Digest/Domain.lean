import GrammarSearch.Digest.Sha256

/-!
# Digests of content

Every digest the library takes is a digest of content of a certain kind. The
kind's separator, a text closed by NUL, stands before the content, so content
of two kinds is never hashed as the same byte string, whatever its bytes are.
-/

namespace GrammarSearch

/-- The kinds of content that have digests. -/
inductive Domain
  /-- Canonical JSON of a program. -/
  | program
  /-- Identity of a partial program inside a search. -/
  | searchNode
  /-- Canonical JSON of a grammar's catalogue. -/
  | catalog
deriving DecidableEq

namespace Domain

/-- Every kind of content. -/
def all : List Domain := [.program, .searchNode, .catalog]

/-- The name under which a kind is listed. -/
def name : Domain → String
  | .program => "SExpression"
  | .searchNode => "SearchNode"
  | .catalog => "DslCatalog"

/-- The text that stands before content of a kind. -/
def separator : Domain → String
  | .program => "NEUROSYM::SEXPRESSION::V1\x00"
  | .searchNode => "NEUROSYM::SEARCH_NODE::V1\x00"
  | .catalog => "NEUROSYM::DSL_CATALOG::V1\x00"

/-- The byte string that is hashed for content of a kind. -/
def tagged (domain : Domain) (content : ByteArray) : ByteArray :=
  domain.separator.toUTF8 ++ content

/-- The digest of content of a kind. -/
def digest (domain : Domain) (content : ByteArray) : Digest :=
  sha256 (domain.tagged content)

end Domain

namespace Digest

/-- The name of the hash function. -/
def algorithm : String := "sha256"

/-- A digest with the name of its hash function before it. -/
def text (d : Digest) : String :=
  algorithm ++ ":" ++ d.hex

end Digest

end GrammarSearch
