import Mathlib.Data.List.Forall2
import Mathlib.Data.List.Nodup
import SqlInlay.Projection
import SqlInlay.Proofs.Sql.Letters

/-!
# The getters of a projection interface

An interface lists one getter for each alias, in the order of the aliases, and the name of every
getter is a name that Java allows (`isJavaName_getterName`).  An interface that lists a getter twice
is not one that Java accepts, though, so the question is which aliases come to the same getter.

**Names.**  A name consists of letters, digits, underscores and dollar signs, does not start with a
digit and is no reserved word.  The `get` in front sees to the start and to reserved words, none of
which starts like that; the characters are in order because whatever cannot stand in a name is
written as an underscore.

**Where two getters fall together.**  Aliases are told apart by their text, getters by what is left
of it: a character that cannot stand in a name is written as an underscore, and the first letter is
raised.  `Collide` says which aliases lose their difference on the way, without writing the names,
and `getterName_eq_iff` says that these are all.

* `cleanedChar_eq_iff` is about characters behind the first.
* `toUpper_cleanedChar_eq_iff` is about the first one, where two letters may differ in case.

So the getters of an interface are distinct exactly if no two aliases collide
(`projection_getters`); the aliases of a query may well do (`not_projection_getters`).
-/

namespace SqlInlay.Projection

open SqlInlay.Sql

/-! ## Names that Java allows

Only ASCII counts as a letter here: the names of getters have no others, so nothing more is needed
of what Java allows.
-/

/-- The words that Java reserves. -/
def reservedWords : List Text :=
  ["abstract", "assert", "boolean", "break", "byte", "case", "catch", "char", "class", "const",
   "continue", "default", "do", "double", "else", "enum", "extends", "false", "final", "finally",
   "float", "for", "goto", "if", "implements", "import", "instanceof", "int", "interface", "long",
   "native", "new", "null", "package", "private", "protected", "public", "return", "short",
   "static", "strictfp", "super", "switch", "synchronized", "this", "throw", "throws", "transient",
   "true", "try", "void", "volatile", "while", "_"].map String.toList

/-- A text of letters, digits, underscores and dollar signs that does not start with a digit and is
no reserved word. -/
structure IsJavaName (t : Text) : Prop where
  start : ∃ c ∈ t.head?, c.isDigit = false
  chars : ∀ c ∈ t, isNameChar c = true
  free : t ∉ reservedWords

/-- What a character leaves in a name. -/
def cleanedChar (c : Char) : Char := if isNameChar c then c else '_'

lemma isNameChar_cleanedChar (c : Char) : isNameChar (cleanedChar c) = true := by
  unfold cleanedChar
  split
  · assumption
  · rfl

lemma isNameChar_toUpper (c : Char) : isNameChar c.toUpper = isNameChar c :=
  apply_toUpper (by decide) c

lemma getterName_cons (c : Char) (t : Text) :
    getterName (c :: t) = "get".toList ++ (cleanedChar c).toUpper :: t.map cleanedChar := rfl

/-- **The name of a getter is one that Java allows**, for any text whatever, the empty one included.
So an alias in quotes may hold blanks or signs and still has a getter. -/
lemma isJavaName_getterName (t : Text) : IsJavaName (getterName t) := by
  have hopens : ∃ rest, getterName t = "get".toList ++ rest ∧ ∀ c ∈ rest, isNameChar c = true := by
    cases t with
    | nil => exact ⟨[], rfl, by simp⟩
    | cons c t =>
      refine ⟨_, getterName_cons c t, List.forall_mem_cons.2 ⟨?_, List.forall_mem_map.2 ?_⟩⟩
      · rw [isNameChar_toUpper, isNameChar_cleanedChar]
      · exact fun d _ => isNameChar_cleanedChar d
  obtain ⟨rest, hrest, hchars⟩ := hopens
  rw [hrest]
  have hget : "get".toList.all isNameChar = true := by decide
  refine ⟨⟨'g', rfl, rfl⟩, List.forall_mem_append.2 ⟨List.all_eq_true.1 hget, hchars⟩,
    fun hword => ?_⟩
  have hwords : ∀ word ∈ reservedWords, word.take 3 ≠ "get".toList := by decide
  exact hwords _ hword rfl

/-! ## Aliases that collide

Two texts collide if they have as many characters and each leaves what its counterpart leaves.
-/

/-- Two characters leave the same in a name: they are the same, or both leave an underscore.  The
underscore is one of those that leave it. -/
def LeaveSame (c d : Char) : Prop :=
  c = d ∨ (isNameChar c = false ∨ c = '_') ∧ (isNameChar d = false ∨ d = '_')

/-- Two texts leave the same name, the case of the first letter aside.  They are of the same length,
for every character leaves one. -/
inductive Collide : Text → Text → Prop
  | nil : Collide [] []
  | cons {c d : Char} {s t : Text} (hfirst : LeaveSame c d ∨ c.toUpper = d.toUpper)
      (hrest : List.Forall₂ LeaveSame s t) : Collide (c :: s) (d :: t)

lemma cleanedChar_eq_underscore_iff {c : Char} :
    cleanedChar c = '_' ↔ isNameChar c = false ∨ c = '_' := by
  unfold cleanedChar
  split
  · rename_i hc
    simp [hc]
  · rename_i hc
    simp [hc]

lemma cleanedChar_eq_iff {c d : Char} : cleanedChar c = cleanedChar d ↔ LeaveSame c d := by
  constructor
  · intro h
    by_cases hc : cleanedChar c = '_'
    · exact .inr ⟨cleanedChar_eq_underscore_iff.1 hc, cleanedChar_eq_underscore_iff.1 (h ▸ hc)⟩
    · have hname : ∀ e, cleanedChar e ≠ '_' → cleanedChar e = e := by
        intro e he
        by_contra hne
        exact he (if_neg fun hchar => hne (if_pos hchar))
      exact .inl (by rw [← hname c hc, h, hname d (h ▸ hc)])
  · rintro (rfl | ⟨hc, hd⟩)
    · rfl
    · rw [cleanedChar_eq_underscore_iff.2 hc, cleanedChar_eq_underscore_iff.2 hd]

/-- Capitals of what two characters leave are the same if they leave the same, or if they are the
same letter. -/
lemma toUpper_cleanedChar_eq_iff {c d : Char} :
    (cleanedChar c).toUpper = (cleanedChar d).toUpper ↔
      LeaveSame c d ∨ c.toUpper = d.toUpper := by
  rw [← cleanedChar_eq_iff]
  constructor
  · intro h
    have hclass : isNameChar c = false ∨ isNameChar d = false ∨ c.toUpper = d.toUpper := by
      unfold cleanedChar at h
      split at h
      · split at h
        · exact .inr (.inr h)
        · rename_i hd
          exact .inr (.inl (by simpa using hd))
      · rename_i hc
        exact .inl (by simpa using hc)
    have hunderscore : ∀ e : Char, e.toUpper = '_' ↔ e = '_' := fun e => toUpper_eq_iff (by decide)
    rcases hclass with hc | hd | hsame
    · have hleft := cleanedChar_eq_underscore_iff.2 (.inl hc)
      rw [hleft, eq_comm, (hunderscore '_').2 rfl, hunderscore] at h
      exact .inl (hleft.trans h.symm)
    · have hright := cleanedChar_eq_underscore_iff.2 (.inl hd)
      rw [hright, (hunderscore '_').2 rfl, hunderscore] at h
      exact .inl (h.trans hright.symm)
    · exact .inr hsame
  · rintro (h | h)
    · rw [h]
    · have hclass : isNameChar c = isNameChar d := by
        rw [← isNameChar_toUpper c, h, isNameChar_toUpper]
      unfold cleanedChar
      rw [hclass]
      split
      · exact h
      · rfl

/-- **Two aliases have the same getter if and only if they collide.**  The definition of `Collide`
has no getters in it, so it can be asked of aliases before any name is written. -/
lemma getterName_eq_iff {s t : Text} : getterName s = getterName t ↔ Collide s t := by
  cases s with
  | nil =>
    cases t with
    | nil => exact ⟨fun _ => .nil, fun _ => rfl⟩
    | cons d t =>
      refine ⟨fun h => ?_, fun h => by cases h⟩
      have hlength := congrArg List.length h
      simp [getterName, cleaned] at hlength
  | cons c s =>
    cases t with
    | nil =>
      refine ⟨fun h => ?_, fun h => by cases h⟩
      have hlength := congrArg List.length h
      simp [getterName, cleaned] at hlength
    | cons d t =>
      have hrest : s.map cleanedChar = t.map cleanedChar ↔ List.Forall₂ LeaveSame s t := by
        rw [← List.forall₂_eq_eq_eq, List.forall₂_map_left_iff, List.forall₂_map_right_iff]
        simp only [cleanedChar_eq_iff]
      rw [getterName_cons, getterName_cons, List.append_right_inj, List.cons.injEq,
        toUpper_cleanedChar_eq_iff, hrest]
      refine ⟨fun h => .cons h.1 h.2, fun h => ?_⟩
      cases h with
      | cons hfirst hrest => exact ⟨hfirst, hrest⟩

/-! ## The interface

Duplicate aliases are dropped when they are collected, so two equal getters are always those of two
different aliases.
-/

/-- Duplicates erased are erased. -/
lemma nodup_eraseDups {α : Type} [BEq α] [LawfulBEq α] (l : List α) : l.eraseDups.Nodup := by
  induction hlength : l.length using Nat.strongRecOn generalizing l with
  | _ n ih =>
    subst hlength
    cases l with
    | nil => exact .nil
    | cons a l =>
      rw [List.eraseDups_cons, List.nodup_cons]
      refine ⟨fun ha => ?_, ih _ ?_ _ rfl⟩
      · simpa using List.mem_eraseDups.1 ha
      · exact Nat.lt_succ_of_le (List.length_filter_le _ l)

/-- The aliases of a query are distinct. -/
lemma nodup_aliasesOf {query : Text} {aliases : List Text} (h : aliasesOf query = .ok aliases) :
    aliases.Nodup := by
  rw [aliasesOf] at h
  cases htokens : tokenize query with
  | error failure => simp [htokens, bind, Except.bind] at h
  | ok tokens =>
    simp only [htokens, bind, Except.bind] at h
    split at h
    · cases h
    · split at h
      · cases h
      · exact Except.ok.inj h ▸ nodup_eraseDups _

/-- **The getters of an interface.**  An interface lists one getter for each alias of its query, in
their order, and each has a name that Java allows.  No getter is listed twice if and only if no two
of the aliases, which are all distinct, collide. -/
theorem projection_getters {query name source : Text} {package : Option Text}
    (h : projection query name package = .ok source) :
    ∃ aliases title, aliasesOf query = .ok aliases ∧ interfaceName name = .ok title ∧
      source = packageLine package ++ "public interface ".toList ++ title ++ " \x7b\n".toList ++
        (aliases.map getterName).flatMap
          (fun getter => "    Object ".toList ++ getter ++ "();\n".toList) ++ ['\x7d'] ∧
      aliases.Nodup ∧ (∀ getter ∈ aliases.map getterName, IsJavaName getter) ∧
      ((aliases.map getterName).Nodup ↔ aliases.Pairwise fun a b => ¬ Collide a b) := by
  cases haliases : aliasesOf query with
  | error failure => simp [projection, haliases, bind, Except.bind] at h
  | ok aliases =>
    cases htitle : interfaceName name with
    | error failure => simp [projection, haliases, htitle, bind, Except.bind] at h
    | ok title =>
      have hsource : source = interface title package aliases := by
        simpa [projection, haliases, htitle, bind, Except.bind, pure, Except.pure] using h.symm
      refine ⟨aliases, title, rfl, rfl, ?_, nodup_aliasesOf haliases,
        List.forall_mem_map.2 fun a _ => isJavaName_getterName a, ?_⟩
      · rw [hsource, interface, List.flatMap_map]
        rfl
      · rw [List.Nodup, List.pairwise_map]
        simp only [ne_eq, getterName_eq_iff]

/-- Two aliases in quotes that stay apart. -/
theorem projection_getters_quoted :
    projection "select a as \"order id\", b as 'Order' from t" "view" (some "com.acme") =
        .ok ("package com.acme;\n\npublic interface View \x7b\n".toList ++
          "    Object getOrder_id();\n    Object getOrder();\n\x7d".toList) ∧
      ∃ aliases, aliasesOf "select a as \"order id\", b as 'Order' from t" = .ok aliases ∧
        aliases.Nodup ∧ ∀ getter ∈ aliases.map getterName, IsJavaName getter := by
  have h : projection "select a as \"order id\", b as 'Order' from t" "view" (some "com.acme") =
      .ok ("package com.acme;\n\npublic interface View \x7b\n".toList ++
        "    Object getOrder_id();\n    Object getOrder();\n\x7d".toList) := by
    decide +kernel
  obtain ⟨aliases, -, haliases, -, -, hdistinct, hnames, -⟩ := projection_getters h
  exact ⟨h, aliases, haliases, hdistinct, hnames⟩

/-- **Two aliases may have the same getter**, here two that differ in the case of their first letter
only. -/
theorem not_projection_getters :
    aliasesOf "select a as id, b as Id from t" = .ok ["id".toList, "Id".toList] ∧
      projection "select a as id, b as Id from t" "View" none =
        .ok "public interface View \x7b\n    Object getId();\n    Object getId();\n\x7d" ∧
      ¬ (["id".toList, "Id".toList].map getterName).Nodup := by
  refine ⟨by decide +kernel, by decide +kernel, by decide +kernel⟩

end SqlInlay.Projection
