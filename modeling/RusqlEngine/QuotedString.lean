import RusqlEngine.Substitution

/-!
# Which quoted strings stand for themselves

The quotes of a string are gone when the variables of a statement are put in, so a string that
spells the name of a variable in reach is read as the variable. Every other string, the
markers of the engine apart, comes to the table or to the comparison as it is.
-/

namespace RusqlEngine

namespace Place

def bodyVars : Place → VarMap
  | .top => []
  | .routine proc => proc
  | .trigger oldRow newRow => rowVars "OLD." oldRow ++ rowVars "NEW." newRow

/-- The text is `@name` or `@@name`, or the name of a variable of the body apart from case. -/
def SpellsVariable (place : Place) (text : List Char) : Prop :=
  (∃ name, text = '@' :: name ∧ Vars.isUserName name) ∨
    (text ≠ [] ∧ text.head? ≠ some '@' ∧
      ∃ v ∈ place.bodyVars, lowerText v.1 = lowerText text)

theorem mem_passes_proc {user : VarMap} {place : Place} {v : Vars} (h : v ∈ place.passes user) :
    v.proc = place.bodyVars ∧ v.user = user ∧ (v.row = none ∨ v.row = some place.bodyVars) := by
  cases place with
  | top | routine proc =>
    rw [passes, List.mem_singleton] at h
    subst h
    exact ⟨rfl, rfl, .inl rfl⟩
  | trigger oldRow newRow =>
    simp only [passes, List.mem_cons, List.not_mem_nil, or_false] at h
    rcases h with rfl | rfl
    · exact ⟨rfl, rfl, .inr rfl⟩
    · exact ⟨rfl, rfl, .inl rfl⟩

end Place

variable {text : List Char}

namespace Vars

theorem procValue_eq_none_iff {proc : VarMap} {name : List Char} :
    procValue proc name = none ↔ ∀ v ∈ proc, lowerText v.1 ≠ lowerText name := by
  rw [procValue, Option.or_eq_none_iff, Option.map_eq_none_iff, List.find?_eq_none,
    List.lookup_eq_none_iff]
  constructor
  · rintro ⟨-, h⟩ v hv
    simpa using h v hv
  · intro h
    refine ⟨fun v hv => ?_, fun v hv => by simpa using h v hv⟩
    rw [bne_iff_ne]
    rintro rfl
    exact h v hv rfl

theorem toLower_toLower (c : Char) : c.toLower.toLower = c.toLower := by
  by_cases h : c.val ≥ 'A'.val ∧ c.val ≤ 'Z'.val
  · have hlow : ¬ (c.toLower.val ≥ 'A'.val ∧ c.toLower.val ≤ 'Z'.val) := by
      have hval : c.toLower.val = c.val + 32 := congrArg Char.val (dif_pos h)
      have hle : c.val.toNat ≤ 90 := h.2
      have hge : 65 ≤ c.val.toNat := h.1
      rintro ⟨-, hupper⟩
      rw [hval] at hupper
      have hsum : (c.val + 32).toNat ≤ 90 := hupper
      rw [UInt32.toNat_add] at hsum
      have : (32 : UInt32).toNat = 32 := rfl
      omega
    exact dif_neg hlow
  · have hsame : c.toLower = c := dif_neg h
    rw [hsame, hsame]

theorem lowerText_lowerText (text : List Char) : lowerText (lowerText text) = lowerText text := by
  rw [lowerText, lowerText, List.map_map]
  refine List.map_congr_left fun c _ => ?_
  exact toLower_toLower c

theorem rowValue_eq_none {row : VarMap} {name : List Char}
    (h : ∀ v ∈ row, lowerText v.1 ≠ lowerText name) : rowValue row name = none := by
  have hlookup : ∀ key, lowerText key = lowerText name → row.lookup key = none := by
    intro key hkey
    rw [List.lookup_eq_none_iff]
    intro v hv
    rw [bne_iff_ne]
    rintro rfl
    exact h v hv hkey
  have hlower : lowerText (name.take 4 ++ lowerText (name.drop 4)) = lowerText name := by
    rw [lowerText, List.map_append, ← lowerText, ← lowerText, lowerText_lowerText, lowerText,
      lowerText, ← List.map_append, List.take_append_drop]
    rfl
  rw [rowValue, hlookup name rfl]
  split
  · rw [hlookup _ hlower]
    rfl
  · rfl

theorem value_cons_of_ne {c : Char} (hc : c ≠ '@') (v : Vars) (cs : List Char) :
    v.value (c :: cs) = (v.row.bind fun row => rowValue row (c :: cs)).or
      (procValue v.proc (c :: cs)) := by
  rw [value]
  · exact List.cons_ne_nil c cs
  · intro name hname
    exact hc (List.cons.inj hname).1

theorem value_eq_none_iff {user : VarMap} {place : Place} {v : Vars} (hv : v ∈ place.passes user) :
    v.value text = none ↔ ¬ place.SpellsVariable text := by
  obtain ⟨hproc, -, hrow⟩ := Place.mem_passes_proc hv
  cases text with
  | nil => simp [value, Place.SpellsVariable]
  | cons c cs =>
    by_cases hc : c = '@'
    · subst hc
      simp [value, Place.SpellsVariable]
    · have hspells : place.SpellsVariable (c :: cs) ↔
          ∃ x ∈ place.bodyVars, lowerText x.1 = lowerText (c :: cs) := by
        simp [Place.SpellsVariable, hc]
      rw [value_cons_of_ne hc, Option.or_eq_none_iff, hproc, procValue_eq_none_iff, hspells]
      push Not
      refine ⟨fun h => h.2, fun h => ⟨?_, h⟩⟩
      rcases hrow with hrow | hrow
      · rw [hrow]
        rfl
      · rw [hrow]
        exact rowValue_eq_none h

end Vars

/-- The texts that a leaf of a condition compares with. -/
def ConditionValue.texts {A Q : Type} : ConditionValue A Q → List Literal
  | .literal l => [l]
  | .literalList ls => ls
  | .between lo hi => [lo, hi]
  | .arith _ => []
  | .subquery _ => []

/-- The right sides of a condition, leaf by leaf. -/
def WhereExpr.values {A Q : Type} : WhereExpr A Q → List (ConditionValue A Q)
  | .leaf _ value => [value]
  | .and lhs rhs => lhs.values ++ rhs.values
  | .or lhs rhs => lhs.values ++ rhs.values
  | .not inner => inner.values

def WhereExpr.textAt {A Q : Type} (e : WhereExpr A Q) (i j : Nat) : Option Literal :=
  (e.values[i]?).bind fun value => value.texts[j]?

def isMarker (text : List Char) : Prop :=
  text.head? = some '\x01' ∨ text = insertDefault ∨ text = nullMarker

section

variable {A Q : Type} {env : ExprEnv A Q} {v : Vars} {l : Literal}

theorem literal_kept (h : v.value l.value = none) : env.literal v l = l := by
  rw [ExprEnv.literal, h]

theorem listItem_kept (h : v.value l.value = none) : env.listItem v l = l := by
  simp [ExprEnv.listItem, Vars.textOf, h]

theorem bound_kept (h : v.value l.value = none) : env.bound v l = l := by
  simp [ExprEnv.bound, Vars.textOf, h]

theorem conditionValue_kept {value : ConditionValue A Q} {j : Nat}
    (h : v.value l.value = none) (hl : value.texts[j]? = some l) :
    (env.conditionValue v value).texts[j]? = some l := by
  cases value with
  | literal m =>
    rw [ConditionValue.texts, List.getElem?_singleton] at hl
    split at hl
    · rename_i hj
      obtain rfl := Option.some.inj hl
      rw [ExprEnv.conditionValue, ConditionValue.texts, literal_kept h, hj]
      rfl
    · cases hl
  | literalList ls =>
    rw [ExprEnv.conditionValue, ConditionValue.texts, List.getElem?_map]
    rw [ConditionValue.texts] at hl
    rw [hl, Option.map_some, listItem_kept h]
  | between lo hi =>
    rw [ExprEnv.conditionValue, ConditionValue.texts]
    rw [ConditionValue.texts] at hl
    have hmap : [env.bound v lo, env.bound v hi] = [lo, hi].map (env.bound v) := rfl
    rw [hmap, List.getElem?_map, hl, Option.map_some, bound_kept h]
  | arith expr => cases hl
  | subquery q => cases hl

theorem values_cond (env : ExprEnv A Q) (v : Vars) (e : WhereExpr A Q) :
    (env.cond v e).values = e.values.map (env.conditionValue v) := by
  induction e with
  | leaf left value => rfl
  | and lhs rhs ihl ihr | or lhs rhs ihl ihr => simp [ExprEnv.cond, WhereExpr.values, ihl, ihr]
  | not inner ih => simp [ExprEnv.cond, WhereExpr.values, ih]

theorem substituteCondition_kept {e : WhereExpr A Q} {i j : Nat} (h : v.value l.value = none)
    (hl : e.textAt i j = some l) : (env.substituteCondition v e).textAt i j = some l := by
  rw [ExprEnv.substituteCondition]
  split
  · exact hl
  · obtain ⟨value, hvalue, htext⟩ := Option.bind_eq_some_iff.mp hl
    rw [WhereExpr.textAt, values_cond, List.getElem?_map, hvalue]
    exact conditionValue_kept h htext

theorem wherePasses_kept {passes : List Vars} {e : WhereExpr A Q} {i j : Nat}
    (h : ∀ v ∈ passes, v.value l.value = none) (hl : e.textAt i j = some l) :
    (passes.foldl (fun e v => env.substituteCondition v e) e).textAt i j = some l := by
  induction passes generalizing e with
  | nil => exact hl
  | cons v passes ih =>
    rw [List.foldl_cons]
    refine ih (fun w hw => h w (.tail _ hw)) ?_
    exact substituteCondition_kept (h v List.mem_cons_self) hl

theorem substituteInsertValue_kept (h : v.value text = none) (hmark : text.head? ≠ some '\x01') :
    env.substituteInsertValue v text = .ok text := by
  rw [ExprEnv.substituteInsertValue]
  · rw [Vars.textOf, h, Option.getD_none, ite_self]
  · rintro encoded rfl
    exact hmark rfl

theorem evaluateInsertValue_kept {routing : Bool} (hmark : text.head? ≠ some '\x01') :
    env.evaluateInsertValue v routing text = .ok text := by
  rw [ExprEnv.evaluateInsertValue]
  rintro encoded rfl
  exact hmark rfl

theorem insertPasses_kept {passes : List Vars} (h : ∀ v ∈ passes, v.value text = none)
    (hmark : text.head? ≠ some '\x01') :
    passes.foldlM (fun value v => env.substituteInsertValue v value) text = .ok text := by
  induction passes with
  | nil => rfl
  | cons v passes ih =>
    rw [List.foldlM_cons, substituteInsertValue_kept (h v List.mem_cons_self) hmark]
    exact ih fun w hw => h w (.tail _ hw)

theorem store_kept {col : TextColumn} {now : List Char} (hnull : text ≠ nullText)
    (hdefault : text ≠ insertDefault) : col.store now text = .ok text := by
  simp [TextColumn.store, hnull, hdefault]

theorem insertedText_kept {user : VarMap} {place : Place} {col : TextColumn} {now : List Char}
    (h : ¬ place.SpellsVariable text) (hnull : text ≠ nullText) (hmarker : ¬ isMarker text) :
    env.insertedText user place col now text = .ok text := by
  obtain ⟨hmark, hdefault, -⟩ : text.head? ≠ some '\x01' ∧ text ≠ insertDefault ∧
      text ≠ nullMarker := by
    simpa [isMarker] using hmarker
  have hpasses : (place.passes user).foldlM (fun value v => env.substituteInsertValue v value)
      text = .ok text :=
    insertPasses_kept (fun v hv => (Vars.value_eq_none_iff hv).mpr h) hmark
  have hrouted : env.routedValue user place text = .ok text := by
    cases place with
    | top => exact evaluateInsertValue_kept hmark
    | routine proc => rfl
    | trigger oldRow newRow => rfl
  have hstored : col.store now text = .ok text := store_kept hnull hdefault
  simp only [ExprEnv.insertedText, hrouted, bind, Except.bind, hpasses,
    evaluateInsertValue_kept hmark, hstored]

theorem compared_kept {cell : List Char → Option (List Char)} {isNumber : List Char → Bool}
    (hnull : text ≠ nullText) (hmarker : text ≠ nullMarker) :
    (Literal.mk text true).compared cell isNumber = some text := by
  simp [Literal.compared, hnull, hmarker]

end

/-- A quoted string that is no marker of the engine stands for itself unless it spells the name of a
variable in reach: the parser gives its text, an INSERT stores it in a TEXT column, and a condition
compares with it. -/
theorem quotedString_standsForItself {A Q : Type} (env : ExprEnv A Q) (user : VarMap)
    (place : Place) (text : List Char) (hnull : text ≠ nullText) (hmarker : ¬ isMarker text) :
    (∀ parseValueExpr expectIdent setForm next rest, next.kind = .comma ∨
        (setForm = false ∧ next.kind = .rParen) →
      parseInsertValue parseValueExpr expectIdent setForm (⟨.stringLit, text⟩ :: next :: rest) =
        .ok (text, next :: rest)) ∧
    (conditionValueOf (.str text) : ConditionValue A Q) = .literal ⟨text, true⟩ ∧
    (¬ place.SpellsVariable text →
      (∀ col now, env.insertedText user place col now text = .ok text) ∧
      (∀ (e : WhereExpr A Q) (i j : Nat), e.textAt i j = some ⟨text, true⟩ →
        (env.substitutedWhere user place e).textAt i j = some ⟨text, true⟩) ∧
      (∀ cell isNumber, (Literal.mk text true).compared cell isNumber = some text) ∧
      (Literal.mk text true).comparedItem = some text) ∧
    (∀ v ∈ place.passes user, place.SpellsVariable text ↔ (v.value text).isSome) := by
  refine ⟨fun parseValueExpr expectIdent setForm next rest hnext => ?_, rfl, fun h => ?_,
    fun v hv => ?_⟩
  · have hplain : isPlainValue setForm (⟨.stringLit, text⟩ :: next :: rest) := by
      rcases hnext with hcomma | ⟨rfl, hparen⟩
      · simp [isPlainValue, plainLength, hcomma]
      · simp [isPlainValue, plainLength, hparen]
    simp [parseInsertValue, hplain]
  · refine ⟨fun col now => insertedText_kept h hnull hmarker,
      fun e i j htext => ?_, fun cell isNumber => ?_, ?_⟩
    · exact wherePasses_kept (fun v hv => (Vars.value_eq_none_iff hv).mpr h) htext
    · exact compared_kept hnull fun hsame => hmarker (.inr (.inr hsame))
    · simp [Literal.comparedItem, hnull]
  · rw [Option.isSome_iff_ne_none, ne_eq, Vars.value_eq_none_iff hv, not_not]

/-- A statement without expressions. -/
def plainEnv : ExprEnv Unit Unit where
  rewriteEncoded := fun _ _ => .error "parse error"
  evalEncoded := fun _ _ => .error "parse error"
  hasSubquery := fun _ => false
  arith := fun _ => id
  query := fun _ => id
  parsesNumber := fun text => text ≠ [] && text.all Char.isDigit

def noteColumn : TextColumn :=
  ⟨"note", false, none⟩

theorem quotedString_standsForItself_note :
    plainEnv.insertedText [("x".toList, "7".toList)] (.routine [("p".toList, [])]) noteColumn []
      "x@y".toList = .ok "x@y".toList := by
  have hname : ¬ (Place.routine [("p".toList, [])]).SpellsVariable "x@y".toList := by
    rintro (⟨name, hname, -⟩ | ⟨-, -, v, hv, hlower⟩)
    · exact absurd (List.cons.inj hname).1 (by decide)
    · rw [Place.bodyVars, List.mem_singleton] at hv
      subst hv
      exact absurd hlower (by decide)
  have hmarker : ¬ isMarker "x@y".toList := by
    rw [isMarker]
    decide
  exact ((quotedString_standsForItself plainEnv [("x".toList, "7".toList)]
    (.routine [("p".toList, [])]) "x@y".toList (by decide) hmarker).2.2.1 hname).1 noteColumn []

/-- `INSERT INTO t (note) VALUES ('@x')` stores what the variable holds, and in a procedure with a
variable `p`, `WHERE note = 'P'` compares with what `p` holds. -/
theorem quotedString_read_as_variable :
    plainEnv.insertedText [("x".toList, "secret".toList)] .top noteColumn [] "@x".toList =
      .ok "secret".toList ∧
    (plainEnv.substitutedWhere [] (.routine [("p".toList, "other".toList)])
      (.leaf () (conditionValueOf (.str "P".toList)))).textAt 0 0 =
        some ⟨"other".toList, true⟩ := by
  exact ⟨rfl, by decide⟩

end RusqlEngine
