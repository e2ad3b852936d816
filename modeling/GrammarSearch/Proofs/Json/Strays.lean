import GrammarSearch.Proofs.Json.Members

/-!
# Canonical texts

A path leads into a value through items of arrays and members of objects (`Json.at?`). A number that
is no 64-bit integer is a stray wherever it stands. A value without strays has a canonical text, and
any other value is refused for the stray that a walk meets first, if it takes the items of arrays in
order and the members of objects in the order of their keys. Values have one canonical text exactly
if they are the same as far as objects are maps (`Json.canonical_identifies`).
-/

namespace GrammarSearch

namespace Json

/-! ## Paths -/

/-- A step into a value: to an item of an array, or to the value of a key of an object. -/
inductive Selector
  | index (position : Nat)
  | name (key : String)

/-- What a step leads to. -/
def child? : Json → Selector → Option Json
  | .array items, .index position => items[position]?
  | .object members, .name key => member? members key
  | _, _ => none

/-- What a path leads to. -/
def at? : Json → List Selector → Option Json
  | v, [] => some v
  | v, selector :: path => (v.child? selector).bind fun child => child.at? path

/-- The step is taken earlier in a walk. -/
inductive Selector.Before : Selector → Selector → Prop
  | index {i j : Nat} : i < j → Before (.index i) (.index j)
  | name {key other : String} : key < other → Before (.name key) (.name other)

instance : Std.Asymm Selector.Before where
  asymm := by
    rintro _ _ (less | less) (greater | greater)
    · exact less.asymm greater
    · exact less.asymm greater

/-- A walk comes to the path earlier. -/
abbrev Earlier (path other : List Selector) : Prop := List.Lex Selector.Before path other

/-- At the path stands a number that is no 64-bit integer. -/
def Stray (v : Json) (path : List Selector) (n : Number) : Prop :=
  v.at? path = some (.number n) ∧ ¬n.IsWord

/-- The number is the first stray that a walk meets. -/
def FirstStray (v : Json) (n : Number) : Prop :=
  ∃ path, v.Stray path n ∧ ∀ other m, v.Stray other m → other = path ∨ Earlier path other

variable {v w : Json} {items : List Json} {members : List (String × Json)} {n : Number}

theorem FirstStray.unique {m : Number} (first : v.FirstStray n) (second : v.FirstStray m) :
    n = m := by
  obtain ⟨path, here, least⟩ := first
  obtain ⟨other, there, least'⟩ := second
  obtain rfl : other = path := by
    rcases least other m there with same | earlier
    · exact same
    · rcases least' path n here with same | later
      · exact same.symm
      · exact absurd later (Std.Asymm.asymm path other earlier)
  exact number.inj (Option.some.inj (here.1.symm.trans there.1))

/-- A stray is a number, or stands in an item of an array, or in a member of an object. -/
theorem Stray.cases {path : List Selector} (stray : v.Stray path n) :
    (v = .number n ∧ path = [] ∧ ¬n.IsWord) ∨
    (∃ items i item rest, v = .array items ∧ path = .index i :: rest ∧ items[i]? = some item ∧
      item.Stray rest n) ∨
    ∃ members key value rest, v = .object members ∧ path = .name key :: rest ∧
      member? members key = some value ∧ value.Stray rest n := by
  obtain ⟨there, noWord⟩ := stray
  cases path with
  | nil => exact .inl ⟨Option.some.inj there, rfl, noWord⟩
  | cons selector rest =>
    obtain ⟨child, step, later⟩ := Option.bind_eq_some_iff.1 there
    cases v <;> cases selector <;> try cases step
    · exact .inr (.inl ⟨_, _, child, rest, rfl, rfl, step, later, noWord⟩)
    · exact .inr (.inr ⟨_, _, child, rest, rfl, rfl, step, later, noWord⟩)

theorem Stray.item {i : Nat} {item : Json} {path : List Selector} (stray : item.Stray path n)
    (here : items[i]? = some item) : (Json.array items).Stray (.index i :: path) n := by
  refine ⟨?_, stray.2⟩
  rw [at?, child?, here]
  exact stray.1

theorem Stray.member {key : String} {value : Json} {path : List Selector}
    (stray : value.Stray path n) (here : member? members key = some value) :
    (Json.object members).Stray (.name key :: path) n := by
  refine ⟨?_, stray.2⟩
  rw [at?, child?, here]
  exact stray.1

/-! ## Sorted values -/

/-- The members of every object in the value are in ascending order of their keys. -/
inductive Ascending : Json → Prop
  | null : Ascending .null
  | bool (value : Bool) : Ascending (.bool value)
  | number (value : Number) : Ascending (.number value)
  | text (value : String) : Ascending (.text value)
  | array {items : List Json} : (∀ item ∈ items, Ascending item) → Ascending (.array items)
  | object {members : List (String × Json)} : Keyed.Ascending members →
    (∀ member ∈ members, Ascending member.2) → Ascending (.object members)

theorem ascending_sorted (v : Json) : v.sorted.Ascending := by
  induction v using nestedInduction with
  | null => exact .null
  | bool value => exact .bool value
  | number value => exact .number value
  | text value => exact .text value
  | array items each =>
    rw [sorted, sortedItems_eq_map]
    exact .array (List.forall_mem_map.2 each)
  | object members each =>
    rw [sorted, sortedMembers_eq_map]
    refine .object (Keyed.ascending_sort _) fun member among => ?_
    obtain ⟨original, here, rfl⟩ := List.mem_map.1 (Keyed.mem_of_mem_sort among)
    exact each original here

theorem child?_sorted (v : Json) (selector : Selector) :
    v.sorted.child? selector = (v.child? selector).map sorted := by
  cases v <;> cases selector <;> try rfl
  · rw [sorted, sortedItems_eq_map, child?, child?, List.getElem?_map]
  · rw [sorted, child?, child?, member?, ← Keyed.lookup_sort,
      Keyed.sort_eq_self (Keyed.ascending_sort _), Keyed.lookup_sort, lookup_sortedMembers]

/-- Sorting leaves everything at its path. -/
theorem at?_sorted (v : Json) (path : List Selector) :
    v.sorted.at? path = (v.at? path).map sorted := by
  induction path generalizing v with
  | nil => rfl
  | cons selector path ih =>
    rw [at?, at?, child?_sorted]
    cases v.child? selector with
    | none => rfl
    | some child => exact ih child

theorem stray_sorted {path : List Selector} : v.sorted.Stray path n ↔ v.Stray path n := by
  unfold Stray
  rw [at?_sorted, Option.map_eq_some_iff]
  refine and_congr_left fun _ => ⟨?_, fun there => ⟨_, there, rfl⟩⟩
  rintro ⟨found, there, same⟩
  cases found <;> cases same
  exact there

theorem firstStray_sorted : v.sorted.FirstStray n ↔ v.FirstStray n := by
  simp only [FirstStray, stray_sorted]

/-! ## The first stray -/

theorem firstNonWordItem?_eq_findSome? (items : List Json) :
    firstNonWordItem? items = items.findSome? firstNonWord? := by
  induction items with
  | nil => rfl
  | cons item items ih =>
    rw [firstNonWordItem?, List.findSome?_cons, ih]
    cases item.firstNonWord? <;> rfl

theorem firstNonWordMember?_eq_findSome? (members : List (String × Json)) :
    firstNonWordMember? members = members.findSome? fun member => member.2.firstNonWord? := by
  induction members with
  | nil => rfl
  | cons member members ih =>
    rw [firstNonWordMember?, List.findSome?_cons, ih]
    cases member.2.firstNonWord? <;> rfl

/-- What the search for a stray comes to. -/
structure Surveyed (v : Json) (outcome : Option Number) : Prop where
  none : outcome = none → ∀ path n, ¬v.Stray path n
  some : ∀ n, outcome = some n → v.FirstStray n

theorem surveyed_number (n : Number) : (Json.number n).Surveyed (firstNonWord? (.number n)) := by
  rw [firstNonWord?]
  split
  · next word =>
    refine ⟨fun _ path m stray => ?_, nofun⟩
    obtain ⟨same, -, noWord⟩ | ⟨_, _, _, _, other, -⟩ | ⟨_, _, _, _, other, -⟩ := stray.cases
    · exact noWord (number.inj same ▸ word)
    · cases other
    · cases other
  · next noWord =>
    refine ⟨nofun, ?_⟩
    rintro m ⟨⟩
    refine ⟨[], ⟨rfl, noWord⟩, fun path other stray => .inl ?_⟩
    obtain ⟨-, here, -⟩ | ⟨_, _, _, _, other, -⟩ | ⟨_, _, _, _, other, -⟩ := stray.cases
    · exact here
    · cases other
    · cases other

theorem surveyed_array (each : ∀ item ∈ items, item.Surveyed item.firstNonWord?) :
    (Json.array items).Surveyed (firstNonWord? (.array items)) := by
  rw [firstNonWord?, firstNonWordItem?_eq_findSome?]
  refine ⟨fun absent path n stray => ?_, fun n found => ?_⟩
  · obtain ⟨other, -⟩ | ⟨_, i, item, rest, same, -, here, inside⟩ | ⟨_, _, _, _, other, -⟩ :=
      stray.cases
    · cases other
    · cases same
      have member := List.mem_of_getElem? here
      exact (each item member).none (List.findSome?_eq_none_iff.1 absent item member) rest n inside
    · cases other
  · obtain ⟨before, item, after, rfl, here, quiet⟩ := List.findSome?_eq_some_iff.1 found
    have at_item : (before ++ item :: after)[before.length]? = some item := by simp
    obtain ⟨path, stray, least⟩ := (each item (List.mem_of_getElem? at_item)).some n here
    refine ⟨.index before.length :: path, stray.item at_item, fun other m stray' => ?_⟩
    obtain ⟨wrong, -⟩ | ⟨_, i, item', rest, same, rfl, there, inside⟩ | ⟨_, _, _, _, wrong, -⟩ :=
      stray'.cases
    · cases wrong
    · cases same
      rcases Nat.lt_trichotomy i before.length with earlier | rfl | later
      · rw [List.getElem?_append_left earlier] at there
        have member := List.mem_of_getElem? there
        exact absurd inside ((each item' (List.mem_append_left _ member)).none
          (quiet item' member) rest m)
      · obtain rfl := Option.some.inj (at_item.symm.trans there)
        exact (least rest m inside).imp (congrArg _) .cons
      · exact .inr (.rel (.index later))
    · cases wrong

theorem surveyed_object (ascending : Keyed.Ascending members)
    (each : ∀ member ∈ members, member.2.Surveyed member.2.firstNonWord?) :
    (Json.object members).Surveyed (firstNonWord? (.object members)) := by
  rw [firstNonWord?, firstNonWordMember?_eq_findSome?]
  refine ⟨fun absent path n stray => ?_, fun n found => ?_⟩
  · obtain ⟨other, -⟩ | ⟨_, _, _, _, other, -⟩ | ⟨_, key, value, rest, same, -, here, inside⟩ :=
      stray.cases
    · cases other
    · cases other
    · cases same
      have member := mem_of_member? here
      exact (each _ member).none (List.findSome?_eq_none_iff.1 absent _ member) rest n inside
  · obtain ⟨before, ⟨key, value⟩, after, rfl, here, quiet⟩ := List.findSome?_eq_some_iff.1 found
    have among : (key, value) ∈ before ++ (key, value) :: after :=
      List.mem_append_right before List.mem_cons_self
    have at_key : member? (before ++ (key, value) :: after) key = some value := by
      rw [member?, ← Keyed.lookup_sort, Keyed.sort_eq_self ascending]
      exact ascending.lookup_eq_some_iff.2 among
    obtain ⟨path, stray, least⟩ := (each _ among).some n here
    refine ⟨.name key :: path, stray.member at_key, fun other m stray' => ?_⟩
    obtain ⟨wrong, -⟩ | ⟨_, _, _, _, wrong, -⟩ | ⟨_, name, other, rest, same, rfl, there, inside⟩ :=
      stray'.cases
    · cases wrong
    · cases wrong
    · cases same
      rcases List.mem_append.1 (mem_of_member? there) with earlier | later
      · have clean := (each _ (List.mem_append_left _ earlier)).none (quiet _ earlier)
        exact absurd inside (clean rest m)
      · rcases List.mem_cons.1 later with equal | further
        · cases equal
          exact (least rest m inside).imp (congrArg _) .cons
        · have above := (List.pairwise_cons.1 (List.pairwise_append.1 ascending).2.1).1 _ further
          exact .inr (.rel (.name above))

/-- Where objects are in order, the search for a stray finds the first one. -/
theorem Ascending.surveyed (ascending : v.Ascending) : v.Surveyed v.firstNonWord? := by
  have plain {u : Json} (notNumber : ∀ n, u ≠ .number n) (notArray : ∀ items, u ≠ .array items)
      (notObject : ∀ members, u ≠ .object members) : u.Surveyed none := by
    refine ⟨fun _ path n stray => ?_, nofun⟩
    obtain ⟨same, -⟩ | ⟨_, _, _, _, same, -⟩ | ⟨_, _, _, _, same, -⟩ := stray.cases
    · exact notNumber _ same
    · exact notArray _ same
    · exact notObject _ same
  induction ascending with
  | null => exact plain nofun nofun nofun
  | bool value => exact plain nofun nofun nofun
  | number value => exact surveyed_number value
  | text value => exact plain nofun nofun nofun
  | array _ each => exact surveyed_array each
  | object sorted _ each => exact surveyed_object sorted each

/-! ## Canonical texts -/

theorem canonical_eq_error_iff {e : CanonicalError} :
    v.canonical = .error e ↔ v.sorted.firstNonWord? = some e.number := by
  cases e
  simp only [canonical]
  cases v.sorted.firstNonWord? <;> simp

theorem canonical_eq_ok_iff {text : String} :
    v.canonical = .ok text ↔ v.sorted.firstNonWord? = none ∧ v.sorted.compact = text := by
  simp only [canonical]
  cases v.sorted.firstNonWord? <;> simp

/-- A value is refused for its first stray. -/
theorem canonical_eq_error_iff_firstStray {e : CanonicalError} :
    v.canonical = .error e ↔ v.FirstStray e.number := by
  have surveyed := v.ascending_sorted.surveyed
  rw [canonical_eq_error_iff, ← firstStray_sorted]
  refine ⟨surveyed.some _, fun first => ?_⟩
  cases found : v.sorted.firstNonWord? with
  | none =>
    obtain ⟨path, stray, -⟩ := first
    exact absurd stray (surveyed.none found path _)
  | some m => rw [(surveyed.some m found).unique first]

/-- A value is refused if a stray stands anywhere in it. -/
theorem exists_canonical_error_iff :
    (∃ e, v.canonical = .error e) ↔ ∃ path n, v.Stray path n := by
  constructor
  · rintro ⟨e, refused⟩
    obtain ⟨path, stray, -⟩ := canonical_eq_error_iff_firstStray.1 refused
    exact ⟨path, _, stray⟩
  · rintro ⟨path, n, stray⟩
    cases found : v.sorted.firstNonWord? with
    | none => exact absurd (stray_sorted.2 stray) (v.ascending_sorted.surveyed.none found path n)
    | some m => exact ⟨⟨m⟩, canonical_eq_error_iff.2 found⟩

/-- The canonical text is a canonical form. A value has one unless a number anywhere in it is no
64-bit integer, and is then refused for the first such number that a walk meets; two values that
have canonical texts have one byte string if they are the same, and no other two have. -/
theorem canonical_identifies :
    (∀ (v : Json) (e : CanonicalError), v.canonical = .error e ↔ v.FirstStray e.number) ∧
    (∀ v : Json, (∃ e, v.canonical = .error e) ↔ ∃ path n, v.Stray path n) ∧
    ∀ (v w : Json) (text other : String), v.canonical = .ok text → w.canonical = .ok other →
      (text.toUTF8 = other.toUTF8 ↔ v.Same w) := by
  refine ⟨fun v e => canonical_eq_error_iff_firstStray, fun v => exists_canonical_error_iff,
    fun v w text other textV textW => ?_⟩
  have texts : text.toUTF8 = other.toUTF8 ↔ text = other := String.toByteArray_inj
  rw [texts, same_iff_sorted_eq]
  constructor
  · rintro rfl
    exact sorted_eq_of_canonical_eq textV textW
  · intro same
    rw [← (canonical_eq_ok_iff.1 textV).2, ← (canonical_eq_ok_iff.1 textW).2, same]

/-- A record with its members in one order, at both depths. -/
def record : Json :=
  .object [("x", ofNat 1), ("a", .array [.object [("d", .null), ("c", ofNat 3)], .bool true])]

/-- The record with its members in another order, at both depths. -/
def reordered : Json :=
  .object [("a", .array [.object [("c", ofNat 3), ("d", .null)], .bool true]), ("x", ofNat 1)]

theorem record_same_reordered :
    record.canonical = .ok "\x7b\"a\":[\x7b\"c\":3,\"d\":null\x7d,true],\"x\":1\x7d" ∧
    reordered.canonical = .ok "\x7b\"a\":[\x7b\"c\":3,\"d\":null\x7d,true],\"x\":1\x7d" ∧
    record.Same reordered :=
  have written := by decide +kernel
  have rewritten := by decide +kernel
  ⟨written, rewritten, (canonical_identifies.2.2 record reordered _ _ written rewritten).1 rfl⟩

end Json

end GrammarSearch
