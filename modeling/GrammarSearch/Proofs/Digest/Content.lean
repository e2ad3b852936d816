import GrammarSearch.Proofs.Grammar.Identity
import GrammarSearch.Proofs.Program.Identity
import GrammarSearch.Search.PartialProgram

/-!
# Hashed content

The library takes digests of programs, of partial programs and of grammars. What is hashed is a byte
string: the separator of the kind of content, and the canonical text of the content. The byte string
always exists, and it determines the kind and the content (`Content.messages_identify_contents`):
digests are equal for equal content, and for other content as far as SHA-256 collides.
-/

namespace GrammarSearch

/-! ## Kinds -/

namespace Domain

theorem size_separator (domain : Domain) : domain.separator.toUTF8.size = 26 := by
  cases domain <;> decide

theorem separator_injective : Function.Injective separator := by
  intro domain other same
  cases domain <;> cases other <;> first | rfl | exact absurd same (by decide)

/-- A byte string that is hashed determines the kind and the content. -/
theorem tagged_inj {domain other : Domain} {content others : ByteArray}
    (same : domain.tagged content = other.tagged others) : domain = other ∧ content = others := by
  have sizes := (size_separator domain).trans (size_separator other).symm
  have separators := ByteArray.append_inj_left same sizes
  obtain rfl := separator_injective (String.toByteArray_inj.1 separators)
  exact ⟨rfl, (ByteArray.append_right_inj _).1 same⟩

end Domain

/-! ## Content -/

/-- Content of which the library takes a digest. -/
inductive Content (V : Type)
  | program (p : Program)
  | node (p : PartialProgram)
  | catalog (g : Grammar V)

variable {V W : Type}

namespace Content

/-- The kind of content. -/
def domain : Content V → Domain
  | .program _ => .program
  | .node _ => .searchNode
  | .catalog _ => .catalog

/-- The text that is hashed. -/
def text : Content V → Except Json.CanonicalError String
  | .program p => p.canonical
  | .node p => .ok p.identity
  | .catalog g => g.toJson.canonical

/-- The byte string that is hashed. -/
def message (content : Content V) : Except Json.CanonicalError ByteArray :=
  content.text.map fun text => content.domain.tagged text.toUTF8

/-- The digest that the library takes. -/
def digest : Content V → Except Json.CanonicalError Digest
  | .program p => p.fingerprint
  | .node p => .ok (Fingerprinted.fingerprint p)
  | .catalog g => g.fingerprint

/-- Content of one kind that is the same: equal programs, or equal names and equal catalogues. -/
inductive Same : Content V → Content W → Prop
  | program (p : Program) : Same (.program p) (.program p)
  | node {p q : PartialProgram} (same : p.program = q.program) : Same (.node p) (.node q)
  | catalog {g : Grammar V} {h : Grammar W} (name : g.name = h.name)
      (entries : g.entries = h.entries) : Same (.catalog g) (.catalog h)

/-- The canonical text of content. -/
def canonical : Content V → String
  | .program p => p.toJson.compact
  | .node p => p.program.toJson.compact
  | .catalog g => g.toJson.compact

end Content

/-- A partial program is identified by the canonical text of its program, which always exists. -/
theorem PartialProgram.canonical_program (p : PartialProgram) :
    p.program.canonical = .ok p.identity := by
  rw [identity, Program.canonical_eq]

namespace Content

theorem text_eq (content : Content V) : content.text = .ok content.canonical := by
  cases content with
  | program p => exact p.canonical_eq
  | node p => exact p.canonical_program.symm.trans p.program.canonical_eq
  | catalog g => exact g.canonical_toJson

theorem message_eq (content : Content V) :
    content.message = .ok (content.domain.tagged content.canonical.toUTF8) := by
  rw [message, text_eq]
  rfl

theorem digest_eq (content : Content V) :
    content.digest = .ok (sha256 (content.domain.tagged content.canonical.toUTF8)) := by
  cases content with
  | program p =>
    rw [digest, Program.fingerprint, Program.canonical_eq]
    rfl
  | node p =>
    have identity := Except.ok.inj (p.canonical_program.symm.trans p.program.canonical_eq)
    rw [canonical, ← identity]
    rfl
  | catalog g =>
    rw [digest, Grammar.fingerprint, Grammar.canonical_toJson]
    rfl

/-- Content has one kind and one canonical text if it is the same. -/
theorem same_iff {content : Content V} {other : Content W} :
    content.Same other ↔
      content.domain = other.domain ∧ content.canonical = other.canonical := by
  constructor
  · intro same
    cases same with
    | program p => exact ⟨rfl, rfl⟩
    | node same => exact ⟨rfl, congrArg (·.toJson.compact) same⟩
    | catalog name entries => exact ⟨rfl, Grammar.compact_eq_iff.2 ⟨name, entries⟩⟩
  · intro same
    obtain ⟨kinds, texts⟩ := same
    cases content <;> cases other <;> cases kinds
    · obtain rfl := Program.eq_of_compact_eq texts
      exact .program _
    · exact .node (Program.eq_of_compact_eq texts)
    · obtain ⟨name, entries⟩ := Grammar.compact_eq_iff.1 texts
      exact .catalog name entries

theorem message_eq_iff {content : Content V} {other : Content W} :
    content.message = other.message ↔ content.Same other := by
  rw [message_eq, message_eq, same_iff, Except.ok.injEq]
  constructor
  · intro same
    obtain ⟨kinds, texts⟩ := Domain.tagged_inj same
    exact ⟨kinds, String.toByteArray_inj.1 texts⟩
  · intro same
    rw [same.1, same.2]

/-- Programs and grammars always have canonical texts, and by these partial programs are identified.
Of every content one byte string is hashed, and two are hashed as one byte string exactly if they
are of one kind and the same. -/
theorem messages_identify_contents :
    (∀ p : Program, ∃ text, p.canonical = .ok text) ∧
      (∀ (V : Type) (g : Grammar V), ∃ text, g.toJson.canonical = .ok text) ∧
      (∀ p : PartialProgram, p.program.canonical = .ok p.identity) ∧
      (∀ (V : Type) (content : Content V), ∃ bytes,
        content.message = .ok bytes ∧ content.digest = .ok (sha256 bytes)) ∧
      ∀ (V W : Type) (content : Content V) (other : Content W),
        content.message = other.message ↔ content.Same other :=
  ⟨fun p => ⟨_, p.canonical_eq⟩, fun _ g => ⟨_, g.canonical_toJson⟩,
    fun p => p.canonical_program, fun _ content => ⟨_, content.message_eq, content.digest_eq⟩,
    fun _ _ _ _ => message_eq_iff⟩

end Content

end GrammarSearch
