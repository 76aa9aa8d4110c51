import RusqlEngine.Pushdown

/-!
# What a name reads in a joined row

A joined row holds the cells of its tables under plain and under qualified names. Where no column
has a dot in its name, a reference that names a table reads the cell of that table, and a plain
one the cell of the first table that has it, whichever tables are joined behind it.
-/

namespace RusqlEngine.Pushdown

/-! ### Names with dots -/

def Dotless (s : String) : Prop :=
  '.' ∉ s.toList

theorem toList_key (q c : String) : (q ++ "." ++ c).toList = q.toList ++ '.' :: c.toList := by
  rw [String.toList_append, String.toList_append, List.append_assoc]
  rfl

theorem split_last {a a' b b' : List Char} (hb : '.' ∉ b) (hb' : '.' ∉ b')
    (h : a ++ '.' :: b = a' ++ '.' :: b') : a = a' ∧ b = b' := by
  have hrev := congrArg List.reverse h
  simp only [List.reverse_append, List.reverse_cons, List.append_assoc, List.singleton_append]
    at hrev
  obtain ⟨h₁, h₂⟩ := LengthPrefix.split_at_mark (by simpa using hb) (by simpa using hb') hrev
  exact ⟨List.reverse_injective h₂, List.reverse_injective h₁⟩

variable {q : String} {c : String}

theorem key_inj {q' c' : String} (hc : Dotless c) (hc' : Dotless c')
    (h : q ++ "." ++ c = q' ++ "." ++ c') : q = q' ∧ c = c' := by
  have hlist := congrArg String.toList h
  rw [toList_key, toList_key] at hlist
  obtain ⟨h₁, h₂⟩ := split_last hc hc' hlist
  exact ⟨String.toList_inj.mp h₁, String.toList_inj.mp h₂⟩

theorem not_dotless_key (q c : String) : ¬ Dotless (q ++ "." ++ c) := by
  rw [Dotless, toList_key]
  simp

theorem rtakeWhile_key {a b : List Char} (hb : '.' ∉ b) :
    (a ++ '.' :: b).rtakeWhile (· ≠ '.') = b := by
  induction b using List.reverseRecOn with
  | nil => simp [List.rtakeWhile]
  | append_singleton b x ih =>
    rw [List.mem_append, not_or] at hb
    have hx : x ≠ '.' := fun h => hb.2 (by simp [h])
    rw [← List.cons_append, ← List.append_assoc,
      List.rtakeWhile_concat_pos _ _ _ (by simpa using hx),
      ih hb.1]

theorem rdropWhile_key {a b : List Char} (hb : '.' ∉ b) :
    (a ++ '.' :: b).rdropWhile (· ≠ '.') = a ++ ['.'] := by
  induction b using List.reverseRecOn with
  | nil => rw [List.rdropWhile_concat_neg _ _ _ (by simp)]
  | append_singleton b x ih =>
    rw [List.mem_append, not_or] at hb
    have hx : x ≠ '.' := fun h => hb.2 (by simp [h])
    rw [← List.cons_append, ← List.append_assoc,
      List.rdropWhile_concat_pos _ _ _ (by simpa using hx),
      ih hb.1]

theorem lastDot_key (hc : Dotless c) : lastDot (q ++ "." ++ c) = some (q, c) := by
  have hmem : '.' ∈ (q ++ "." ++ c).toList := by
    rw [toList_key]
    simp
  rw [lastDot, if_pos hmem, toList_key, rtakeWhile_key hc, rdropWhile_key hc, List.dropLast_concat,
    String.ofList_toList, String.ofList_toList]

variable {n : String}

theorem lastDot_eq_none_iff : lastDot n = none ↔ Dotless n := by
  rw [lastDot, Dotless]
  split_ifs with h <;> simp [h]

theorem exists_last_dot {l : List Char} (h : '.' ∈ l) : ∃ a b, l = a ++ '.' :: b ∧ '.' ∉ b := by
  obtain ⟨b, a, hrev, hb⟩ := List.eq_append_cons_of_mem (List.mem_reverse.mpr h)
  refine ⟨a.reverse, b.reverse, ?_, by simpa using hb⟩
  have hl := congrArg List.reverse hrev
  simpa using hl

theorem lastDot_eq_some (h : lastDot n = some (q, c)) : n = q ++ "." ++ c ∧ Dotless c := by
  have hdot : '.' ∈ n.toList := by
    by_contra hno
    rw [lastDot, if_neg hno] at h
    cases h
  obtain ⟨a, b, hab, hb⟩ := exists_last_dot hdot
  have hn : n = String.ofList a ++ "." ++ String.ofList b := by
    rw [← String.toList_inj, toList_key, hab, String.toList_ofList, String.toList_ofList]
  have hc : Dotless (String.ofList b) := by
    rw [Dotless, String.toList_ofList]
    exact hb
  rw [hn, lastDot_key hc, Option.some.injEq, Prod.mk.injEq] at h
  rw [← h.1, ← h.2]
  exact ⟨hn, hc⟩

theorem lastPart_of_dotless (h : Dotless q) : lastPart q = q := by
  have hall : q.toList.rtakeWhile (· ≠ '.') = q.toList := by
    rw [List.rtakeWhile_eq_self_iff]
    intro x hx
    have hne : x ≠ '.' := fun he => h (he ▸ hx)
    simpa using hne
  rw [lastPart, hall, String.ofList_toList]

theorem lastPart_key (t q : String) : lastPart (t ++ "." ++ q) = lastPart q := by
  by_cases hq : Dotless q
  · rw [lastPart_of_dotless hq, lastPart, toList_key, rtakeWhile_key hq, String.ofList_toList]
  · obtain ⟨a, b, hab, hb⟩ := exists_last_dot (not_not.mp hq)
    rw [lastPart, lastPart, toList_key, hab, ← List.cons_append, ← List.append_assoc,
      rtakeWhile_key hb, rtakeWhile_key hb]

variable {k : String}

theorem endsWith_iff {s : String} : endsWith s k ↔ ∃ t : String, k = t ++ s := by
  rw [endsWith, List.isSuffixOf_iff_suffix]
  constructor
  · rintro ⟨t, ht⟩
    refine ⟨String.ofList t, ?_⟩
    rw [← String.toList_inj, String.toList_append, String.toList_ofList, ht]
  · rintro ⟨t, rfl⟩
    rw [String.toList_append]
    exact List.suffix_append _ _

theorem endsWith_key {p : String} (hk : Dotless k) (hc : Dotless c)
    (h : endsWith ("." ++ q ++ "." ++ c) (p ++ "." ++ k)) : k = c ∧ lastPart p = lastPart q := by
  obtain ⟨t, ht⟩ := endsWith_iff.mp h
  have hkey : p ++ "." ++ k = (t ++ "." ++ q) ++ "." ++ c := by
    rw [ht]
    simp only [String.append_assoc]
  obtain ⟨hp, hkc⟩ := key_inj hk hc hkey
  exact ⟨hkc, by rw [hp, lastPart_key]⟩

theorem endsWith_word {p w : String} (hk : Dotless k) (hw : Dotless w)
    (h : endsWith ("." ++ w) (p ++ "." ++ k)) : k = w := by
  obtain ⟨t, ht⟩ := endsWith_iff.mp h
  have hkey : p ++ "." ++ k = t ++ "." ++ w := by
    rw [ht]
    simp only [String.append_assoc]
  exact (key_inj hk hw hkey).2

theorem not_endsWith_dotless {s : String} (hk : Dotless k) : endsWith ("." ++ s) k = false := by
  rw [Bool.eq_false_iff]
  intro h
  obtain ⟨t, ht⟩ := endsWith_iff.mp h
  rw [ht, ← String.append_assoc] at hk
  exact not_dotless_key t s hk

/-! ### The cells of a joined row -/

/-- The cells that `merge_right` and `null_right` add: under the qualified names, and under the free
plain ones. -/
def fill (name : String) (f : String → String) (ks : List String) (m : Row) : Row :=
  ks.foldl (fun m k => emplace (m.set (name ++ "." ++ k) (f k)) k (f k)) m

theorem mergeRight_eq_fill (ord : MapOrder) (m right : Row) (name : String) :
    mergeRight ord m right name =
      fill name (fun k => (right.find k).getD "") (ord.keys right) m :=
  rfl

theorem nullRight_eq_fill (m : Row) (cols : List String) (name : String) :
    nullRight m cols name = fill name (fun _ => executorNull) cols m :=
  rfl

theorem find_emplace (m : Row) (k v key : String) :
    (emplace m k v).find key = (m.find key).or (if key = k then some v else none) := by
  rw [emplace]
  by_cases hkey : key = k
  · subst hkey
    have hif : (if key = key then some v else none) = some v := if_pos rfl
    rw [hif]
    split_ifs with h
    · obtain ⟨w, hw⟩ := Option.isSome_iff_exists.mp h
      rw [hw, Option.some_or]
    · rw [Row.find_set, Option.not_isSome_iff_eq_none.mp h, Option.none_or]
  · rw [if_neg hkey, Option.or_none]
    split_ifs
    · rfl
    · exact Row.find_set_of_ne _ _ hkey

variable {key : String}

section

variable {name : String} {f : String → String} {ks : List String} {m : Row}

theorem fill_cons (k : String) : fill name f (k :: ks) m =
    fill name f ks (emplace (m.set (name ++ "." ++ k) (f k)) k (f k)) :=
  rfl

theorem fill_plain (hks : ∀ k ∈ ks, Dotless k) (hkey : Dotless key) :
    (fill name f ks m).find key =
      (m.find key).or (if key ∈ ks then some (f key) else none) := by
  induction ks generalizing m with
  | nil => simp [fill]
  | cons k ks ih =>
    have hne : key ≠ name ++ "." ++ k := fun h => not_dotless_key name k (h ▸ hkey)
    rw [fill_cons, ih fun x hx => hks x (.tail _ hx), find_emplace,
      Row.find_set_of_ne _ _ hne, Option.or_assoc]
    congr 1
    by_cases h : key = k
    · simp [h]
    · simp [h]

theorem fill_qualified (hks : ∀ k ∈ ks, Dotless k) (hkey : Dotless key) :
    (fill name f ks m).find (name ++ "." ++ key) =
      if key ∈ ks then some (f key) else m.find (name ++ "." ++ key) := by
  induction ks generalizing m with
  | nil => simp [fill]
  | cons k ks ih =>
    have hk := hks k List.mem_cons_self
    have hne : name ++ "." ++ key ≠ k := fun h => not_dotless_key name key (h ▸ hk)
    rw [fill_cons, ih fun x hx => hks x (.tail _ hx), find_emplace, if_neg hne, Option.or_none]
    by_cases h : key = k
    · subst h
      rw [Row.find_set]
      simp
    · have hkeys : name ++ "." ++ key ≠ name ++ "." ++ k := fun he => h (key_inj hkey hk he).2
      rw [Row.find_set_of_ne _ _ hkeys]
      simp [h]

theorem fill_other (hkey : ∀ k ∈ ks, key ≠ name ++ "." ++ k ∧ key ≠ k) :
    (fill name f ks m).find key = m.find key := by
  induction ks generalizing m with
  | nil => rfl
  | cons k ks ih =>
    obtain ⟨h₁, h₂⟩ := hkey k List.mem_cons_self
    rw [fill_cons, ih fun x hx => hkey x (.tail _ hx), find_emplace, if_neg h₂,
      Option.or_none, Row.find_set_of_ne _ _ h₁]

end

/-- The tables of a statement whose names cannot be mistaken: distinct bare names, no column with a
dot or the name of a system cell, no table called like the rows of a trigger. -/
structure PlainScope (tabs : List ScopeTable) : Prop where
  bare_eq : ∀ t ∈ tabs, t.bare = lastPart t.name
  bare_nodup : (tabs.map ScopeTable.bare).Nodup
  dotless : ∀ t ∈ tabs, ∀ c ∈ t.columns, Dotless c
  not_system : ∀ t ∈ tabs, ∀ c ∈ t.columns, c ≠ "_xmin" ∧ c ≠ "_xmax"
  not_trigger : ∀ t ∈ tabs, ∀ c, newOldKey (t.name ++ "." ++ c) = none ∧
    newOldKey (t.bare ++ "." ++ c) = none

/-- What a table adds to a joined row: the cells of its row, or NULLs. -/
def valueOf (t : ScopeTable) (part : Option Row) (k : String) : Option String :=
  match part with
  | some r => r.find k
  | none => if k ∈ t.columns then some executorNull else none

/-- The row of a table has its columns and the system cells. -/
def PartKeyed (t : ScopeTable) (part : Option Row) : Prop :=
  ∀ r, part = some r → ∀ k, (r.find k).isSome ↔ k ∈ t.columns ∨ k = "_xmin" ∨ k = "_xmax"

/-- A row holds the cells of its tables, each under its names. -/
structure Reads (tabs : List ScopeTable) (parts : List (Option Row)) (row : Row) : Prop where
  qualified : ∀ i t p, 1 ≤ i → tabs[i]? = some t → parts[i]? = some p → ∀ k, Dotless k →
    row.find (t.name ++ "." ++ k) = valueOf t p k
  plain : ∀ k, Dotless k →
    row.find k = (tabs.zip parts).findSome? fun e => valueOf e.1 e.2 k
  keys : ∀ key, (row.find key).isSome → Dotless key ∨
    ∃ i t k, 1 ≤ i ∧ i < parts.length ∧ tabs[i]? = some t ∧ Dotless k ∧ key = t.name ++ "." ++ k

variable {tabs : List ScopeTable} {parts : List (Option Row)} {row : Row} {t : ScopeTable}

theorem PlainScope.index_eq (hs : PlainScope tabs) {i j : Nat} {u : ScopeTable}
    (hi : tabs[i]? = some t) (hj : tabs[j]? = some u) (h : lastPart t.name = lastPart u.name) :
    i = j := by
  have ht := hs.bare_eq t (List.mem_of_getElem? hi)
  have hu := hs.bare_eq u (List.mem_of_getElem? hj)
  have hbare : (tabs.map ScopeTable.bare)[i]? = (tabs.map ScopeTable.bare)[j]? := by
    rw [List.getElem?_map, List.getElem?_map, hi, hj, Option.map_some, Option.map_some, ht, hu, h]
  obtain ⟨hlt, -⟩ := List.getElem?_eq_some_iff.mp hi
  exact (List.getElem?_inj (by simpa using hlt) hs.bare_nodup).mp hbare

theorem dotless_system (h : k = "_xmin" ∨ k = "_xmax") : Dotless k := by
  rcases h with rfl | rfl
  · unfold Dotless
    decide
  · unfold Dotless
    decide

variable {r : Row}

theorem PartKeyed.dotless (hs : PlainScope tabs) (ht : t ∈ tabs) (h : PartKeyed t (some r))
    (hk : (r.find k).isSome) : Dotless k := by
  rcases (h r rfl k).mp hk with hcol | hsys
  · exact hs.dotless t ht k hcol
  · exact dotless_system hsys

theorem zip_append_part {n : Nat} (hn : parts.length = n) (ht : tabs[n]? = some t)
    (p : Option Row) : tabs.zip (parts ++ [p]) = tabs.zip parts ++ [(t, p)] := by
  induction tabs generalizing parts n with
  | nil => cases ht
  | cons u tabs ih =>
    cases parts with
    | nil =>
      obtain rfl : n = 0 := hn.symm
      obtain rfl := Option.some.inj ht
      simp
    | cons x parts =>
      obtain ⟨n, rfl⟩ : ∃ m, n = m + 1 := ⟨parts.length, hn.symm⟩
      rw [List.cons_append, List.zip_cons_cons, List.zip_cons_cons,
        ih (Nat.succ.inj hn) ht, List.cons_append]

theorem Reads.from (hs : PlainScope tabs) {t : ScopeTable} (ht : tabs[0]? = some t) {r : Row}
    (hkeyed : PartKeyed t (some r)) : Reads tabs [some r] r where
  qualified i u p hi _ hp := by
    obtain ⟨i, rfl⟩ : ∃ m, i = m + 1 := ⟨i - 1, by omega⟩
    rw [List.getElem?_cons_succ, List.getElem?_nil] at hp
    cases hp
  plain k _ := by
    cases tabs with
    | nil => cases ht
    | cons u tabs =>
      obtain rfl := Option.some.inj ht
      simp only [List.zip_cons_cons, List.zip_nil_right, List.findSome?_cons, valueOf]
      cases r.find k <;> rfl
  keys key hkey := .inl (hkeyed.dotless hs (List.mem_of_getElem? ht) hkey)

variable {p : Option Row}

/-- One table more. -/
theorem Reads.fill (hs : PlainScope tabs) (h : Reads tabs parts row) {n : Nat}
    (hn : parts.length = n) (hpos : 1 ≤ n) (ht : tabs[n]? = some t) {f : String → String}
    {ks : List String} (hks : ∀ k ∈ ks, Dotless k)
    (hval : ∀ k, valueOf t p k = if k ∈ ks then some (f k) else none) :
    Reads tabs (parts ++ [p]) (fill t.name f ks row) where
  qualified i u p' hi hu hp' k hk := by
    by_cases hin : i = n
    · subst hin
      obtain rfl := Option.some.inj (hu.symm.trans ht)
      rw [List.getElem?_append_right (by omega), hn, Nat.sub_self, List.getElem?_cons_zero,
        Option.some.injEq] at hp'
      subst hp'
      rw [fill_qualified hks hk, hval]
      split_ifs with hmem
      · rfl
      · by_contra hsome
        have hsome' : (row.find (u.name ++ "." ++ k)).isSome :=
          Option.isSome_iff_ne_none.mpr hsome
        rcases h.keys _ hsome' with hdot | ⟨j, v, k', -, hj, hv, hk', heq⟩
        · exact not_dotless_key _ _ hdot
        · have hname := (key_inj hk hk' heq).1
          have := hs.index_eq hu hv (by rw [hname])
          omega
    · have hlt : i < parts.length := by
        obtain ⟨hlt, -⟩ := List.getElem?_eq_some_iff.mp hp'
        rw [List.length_append, List.length_singleton] at hlt
        omega
      rw [List.getElem?_append_left hlt] at hp'
      rw [fill_other, h.qualified i u p' hi hu hp' k hk]
      refine fun k' hk' => ⟨fun heq => ?_, fun heq => not_dotless_key _ _ (heq ▸ hks k' hk')⟩
      exact hin (hs.index_eq hu ht (by rw [(key_inj hk (hks k' hk') heq).1]))
  plain k hk := by
    rw [fill_plain hks hk, h.plain k hk, zip_append_part hn ht, List.findSome?_append]
    simp only [List.findSome?_cons, List.findSome?_nil, hval]
    split_ifs <;> rfl
  keys key hkey := by
    by_cases hnew : ∀ k ∈ ks, key ≠ t.name ++ "." ++ k ∧ key ≠ k
    · rw [fill_other hnew] at hkey
      refine (h.keys key hkey).imp_right ?_
      rintro ⟨i, u, k, hi, hlt, hu, hk, heq⟩
      exact ⟨i, u, k, hi, by rw [List.length_append]; omega, hu, hk, heq⟩
    · push Not at hnew
      obtain ⟨k, hk, himp⟩ := hnew
      by_cases heq : key = t.name ++ "." ++ k
      · exact .inr ⟨n, t, k, hpos, by rw [List.length_append, hn, List.length_singleton]; omega,
          ht, hks k hk, heq⟩
      · exact .inl (himp heq ▸ hks k hk)

section

variable {n : Nat} {t : ScopeTable}

theorem Reads.merge (hs : PlainScope tabs) (h : Reads tabs parts row) (hn : parts.length = n)
    (hpos : 1 ≤ n) (ht : tabs[n]? = some t) (ord : MapOrder) (hkeyed : PartKeyed t (some r)) :
    Reads tabs (parts ++ [some r]) (mergeRight ord row r t.name) := by
  rw [mergeRight_eq_fill]
  refine h.fill hs hn hpos ht (fun k hk => ?_) fun k => ?_
  · exact hkeyed.dotless hs (List.mem_of_getElem? ht) ((ord.mem_keys r k).mp hk)
  · simp only [valueOf, ord.mem_keys r k]
    cases r.find k <;> rfl

theorem Reads.null (hs : PlainScope tabs) (h : Reads tabs parts row) (hn : parts.length = n)
    (hpos : 1 ≤ n) (ht : tabs[n]? = some t) :
    Reads tabs (parts ++ [none]) (nullRight row t.columns t.name) := by
  rw [nullRight_eq_fill]
  exact h.fill hs hn hpos ht (hs.dotless t (List.mem_of_getElem? ht)) fun _ => rfl

end

theorem find_foldl_null (keys : List String) (row : Row) (key : String) :
    (keys.foldl (fun (row : Row) k => row.set k executorNull) row).find key =
      if key ∈ keys then some executorNull else row.find key := by
  induction keys generalizing row with
  | nil => simp
  | cons k keys ih =>
    rw [List.foldl_cons, ih]
    by_cases hk : key = k
    · subst hk
      simp
    · rw [Row.find_set_of_ne _ _ hk]
      simp [hk]

/-- The keys that stand for the first `n` tables of a row without them. -/
def padKeys (tabs : List ScopeTable) : List String :=
  match tabs with
  | [] => []
  | t :: rest => t.columns ++ rest.flatMap fun u =>
    u.columns.flatMap fun c => [u.name ++ "." ++ c, c]

theorem mem_padKeys {n : Nat} : key ∈ padKeys (tabs.take n) ↔
    (∃ i t, i < n ∧ tabs[i]? = some t ∧ key ∈ t.columns) ∨
      ∃ i t c, 1 ≤ i ∧ i < n ∧ tabs[i]? = some t ∧ c ∈ t.columns ∧ key = t.name ++ "." ++ c := by
  cases n with
  | zero => simp [padKeys]
  | succ n =>
    cases tabs with
    | nil => simp [padKeys]
    | cons t₀ rest =>
      rw [List.take_succ_cons, padKeys, List.mem_append, List.mem_flatMap]
      constructor
      · rintro (h | ⟨u, hu, hmem⟩)
        · exact .inl ⟨0, t₀, by omega, rfl, h⟩
        · obtain ⟨i, hi⟩ := List.mem_iff_getElem?.mp hu
          rw [List.getElem?_take] at hi
          split_ifs at hi with hlt
          obtain ⟨c, hc, hkey⟩ := List.mem_flatMap.mp hmem
          rw [List.mem_cons, List.mem_singleton] at hkey
          rcases hkey with rfl | rfl
          · exact .inr ⟨i + 1, u, c, by omega, by omega, hi, hc, rfl⟩
          · exact .inl ⟨i + 1, u, by omega, hi, hc⟩
      · have hrest : ∀ {i u}, i + 1 < n + 1 → rest[i]? = some u → u ∈ rest.take n := by
          intro i u hlt hi
          refine List.mem_iff_getElem?.mpr ⟨i, ?_⟩
          rw [List.getElem?_take, if_pos (by omega), hi]
        rintro (⟨i, u, hlt, hi, hcol⟩ | ⟨i, u, c, hpos, hlt, hi, hcol, rfl⟩)
        · cases i with
          | zero =>
            obtain rfl := Option.some.inj hi
            exact .inl hcol
          | succ i =>
            exact .inr ⟨u, hrest hlt hi, List.mem_flatMap.mpr ⟨key, hcol, by simp⟩⟩
        · obtain ⟨i, rfl⟩ : ∃ m, i = m + 1 := ⟨i - 1, by omega⟩
          exact .inr ⟨u, hrest hlt hi, List.mem_flatMap.mpr ⟨c, hcol, by simp⟩⟩

theorem Reads.pad (hs : PlainScope tabs) (n : Nat) :
    Reads tabs (List.replicate n none)
      ((padKeys (tabs.take n)).foldl (fun (row : Row) k => row.set k executorNull) ∅) where
  qualified i t p hi ht hp k hk := by
    rw [List.getElem?_replicate] at hp
    split_ifs at hp with hlt
    obtain rfl := Option.some.inj hp
    have hmem : t.name ++ "." ++ k ∈ padKeys (tabs.take n) ↔ k ∈ t.columns := by
      rw [mem_padKeys]
      constructor
      · rintro (⟨j, u, -, hu, hcol⟩ | ⟨j, u, c, -, -, hu, hcol, heq⟩)
        · exact absurd (hs.dotless u (List.mem_of_getElem? hu) _ hcol) (not_dotless_key _ _)
        · obtain ⟨hname, rfl⟩ :=
            key_inj hk (hs.dotless u (List.mem_of_getElem? hu) c hcol) heq
          obtain rfl := hs.index_eq ht hu (by rw [hname])
          rw [ht, Option.some.injEq] at hu
          rwa [hu]
      · exact fun hcol => .inr ⟨i, t, k, hi, hlt, ht, hcol, rfl⟩
    rw [find_foldl_null, valueOf]
    simp only [hmem]
    rfl
  plain k hk := by
    have hmem : k ∈ padKeys (tabs.take n) ↔ ∃ i t, i < n ∧ tabs[i]? = some t ∧ k ∈ t.columns := by
      rw [mem_padKeys]
      refine or_iff_left ?_
      rintro ⟨j, u, c, -, -, -, -, heq⟩
      exact not_dotless_key _ _ (heq ▸ hk)
    rw [find_foldl_null]
    cases hfirst : (tabs.zip (List.replicate n none)).findSome? fun e => valueOf e.1 e.2 k with
    | none =>
      rw [List.findSome?_eq_none_iff] at hfirst
      rw [if_neg]
      · rfl
      · rw [hmem]
        rintro ⟨i, t, hlt, ht, hcol⟩
        have he : (tabs.zip (List.replicate n (none : Option Row)))[i]? = some (t, none) := by
          rw [List.getElem?_zip_eq_some, List.getElem?_replicate, if_pos hlt]
          exact ⟨ht, rfl⟩
        have hnone := hfirst _ (List.mem_of_getElem? he)
        simp [valueOf, hcol] at hnone
    | some v =>
      obtain ⟨⟨t, p⟩, he, hv⟩ := List.exists_of_findSome?_eq_some hfirst
      obtain ⟨i, hi⟩ := List.mem_iff_getElem?.mp he
      rw [List.getElem?_zip_eq_some, List.getElem?_replicate] at hi
      obtain ⟨ht, hp⟩ := hi
      split_ifs at hp with hlt
      obtain rfl := Option.some.inj hp
      simp only [valueOf] at hv
      split_ifs at hv with hcol
      rw [if_pos (hmem.mpr ⟨i, t, hlt, ht, hcol⟩), hv]
  keys key hkey := by
    rw [find_foldl_null] at hkey
    split_ifs at hkey with hmem
    · rcases mem_padKeys.mp hmem with ⟨i, t, -, ht, hcol⟩ | ⟨i, t, c, hi, hlt, ht, hcol, heq⟩
      · exact .inl (hs.dotless t (List.mem_of_getElem? ht) key hcol)
      · exact .inr ⟨i, t, c, hi, by rwa [List.length_replicate], ht,
          hs.dotless t (List.mem_of_getElem? ht) c hcol, heq⟩
    · cases hkey

/-! ### `get_col` -/

section

variable {ord : MapOrder} {r : Row} {c : String}

theorem newOldKey_eq_none_of_dotless (hc : Dotless c) : newOldKey c = none := by
  rw [newOldKey]
  split
  · rename_i heq
    exact absurd (by rw [heq]; simp) hc
  · rfl

theorem not_dotless_newOldKey (h : newOldKey n = some key) : ¬ Dotless key := by
  rw [newOldKey] at h
  split at h
  · dsimp only at h
    split_ifs at h
    rw [← Option.some.inj h, Dotless, String.toList_ofList]
    simp
  · cases h

theorem getCol_of_find {v : String} (h : r.find c = some v) : getCol ord r c = some v := by
  rw [getCol, h]

theorem getCol_base_plain (hr : ∀ k, (r.find k).isSome → Dotless k) (hc : Dotless c) :
    getCol ord r c = r.find c := by
  cases hfind : r.find c with
  | some v => exact getCol_of_find hfind
  | none =>
    have hfilter : (ord.keys r).filter (endsWith ("." ++ c)) = [] := by
      rw [List.filter_eq_nil_iff]
      intro k hk
      rw [not_endsWith_dotless (hr k ((ord.mem_keys r k).mp hk))]
      decide
    rw [getCol, hfind]
    simp only [newOldKey_eq_none_of_dotless hc, Option.bind_none, lastDot_eq_none_iff.mpr hc,
      hfilter]

theorem getCol_base_qualified (hr : ∀ k, (r.find k).isSome → Dotless k) (q : String)
    (hc : Dotless c) : getCol ord r (q ++ "." ++ c) = r.find c := by
  have hnone : ∀ key, ¬ Dotless key → r.find key = none := by
    intro key hkey
    by_contra hsome
    exact hkey (hr key (Option.isSome_iff_ne_none.mpr hsome))
  have hlower : (newOldKey (q ++ "." ++ c)).bind r.find = none := by
    cases hkey : newOldKey (q ++ "." ++ c) with
    | none => rfl
    | some key => exact hnone key (not_dotless_newOldKey hkey)
  have hfind : (ord.keys r).find? (endsWith ("." ++ q ++ "." ++ c)) = none := by
    rw [List.find?_eq_none]
    intro k hk
    rw [String.append_assoc, String.append_assoc,
      not_endsWith_dotless (hr k ((ord.mem_keys r k).mp hk))]
    decide
  rw [getCol, hnone _ (not_dotless_key q c)]
  simp only [hlower, lastDot_key hc, hfind]

theorem Reads.getCol_word (h : Reads tabs parts row) (hc : Dotless c)
    (hval : ∀ (i : Nat) t p, tabs[i]? = some t → parts[i]? = some p → valueOf t p c = none) :
    getCol ord row c = none := by
  have hfind : row.find c = none := by
    rw [h.plain c hc, List.findSome?_eq_none_iff]
    rintro ⟨t, p⟩ he
    obtain ⟨i, hi⟩ := List.mem_iff_getElem?.mp he
    rw [List.getElem?_zip_eq_some] at hi
    exact hval i t p hi.1 hi.2
  have hfilter : (ord.keys row).filter (endsWith ("." ++ c)) = [] := by
    rw [List.filter_eq_nil_iff]
    intro k hk hends
    have hkey := (ord.mem_keys row k).mp hk
    rcases h.keys k hkey with hdot | ⟨i, t, k', hi, hlt, ht, hk', rfl⟩
    · rw [not_endsWith_dotless hdot] at hends
      cases hends
    · obtain rfl := endsWith_word hk' hc hends
      obtain ⟨p, hp⟩ : ∃ p, parts[i]? = some p := ⟨parts[i], List.getElem?_eq_getElem hlt⟩
      rw [h.qualified i t p hi ht hp k' hk', hval i t p ht hp] at hkey
      cases hkey
  rw [getCol, hfind]
  simp only [newOldKey_eq_none_of_dotless hc, Option.bind_none, lastDot_eq_none_iff.mpr hc, hfilter]

theorem findSome?_zip {α β γ : Type} {as : List α} {bs : List β} {f : α × β → Option γ} {i : Nat}
    {a : α} {b : β} {v : γ} (ha : as[i]? = some a) (hb : bs[i]? = some b) (hv : f (a, b) = some v)
    (hfirst : ∀ j < i, ∀ a' b', as[j]? = some a' → bs[j]? = some b' → f (a', b') = none) :
    (as.zip bs).findSome? f = some v := by
  induction i generalizing as bs with
  | zero =>
    cases as with
    | nil => cases ha
    | cons x as =>
      cases bs with
      | nil => cases hb
      | cons y bs =>
        obtain rfl := Option.some.inj ha
        obtain rfl := Option.some.inj hb
        rw [List.zip_cons_cons, List.findSome?_cons, hv]
  | succ i ih =>
    cases as with
    | nil => cases ha
    | cons x as =>
      cases bs with
      | nil => cases hb
      | cons y bs =>
        rw [List.zip_cons_cons, List.findSome?_cons, hfirst 0 (by omega) x y rfl rfl]
        exact ih ha hb fun j hj a' b' ha' hb' => hfirst (j + 1) (by omega) a' b' ha' hb'

theorem Reads.find_plain (h : Reads tabs parts row) (hc : Dotless c) {i : Nat} {v : String}
    (ht : tabs[i]? = some t) (hp : parts[i]? = some p) (hv : valueOf t p c = some v)
    (hfirst : ∀ j < i, ∀ u x, tabs[j]? = some u → parts[j]? = some x → valueOf u x c = none) :
    row.find c = some v := by
  rw [h.plain c hc]
  exact findSome?_zip ht hp hv hfirst

theorem lastPart_qualifier (hs : PlainScope tabs) (ht : t ∈ tabs) (hq : q = t.name ∨ q = t.bare) :
    lastPart q = lastPart t.name := by
  rcases hq with rfl | rfl
  · rfl
  · rw [hs.bare_eq t ht]
    refine lastPart_of_dotless ?_
    rw [Dotless, lastPart, String.toList_ofList]
    intro hdot
    have := List.mem_rtakeWhile_imp hdot
    simp at this

theorem eq_key_of_lastPart_ne (h : lastPart n ≠ n) : ∃ pre, n = pre ++ "." ++ lastPart n := by
  by_cases hdot : Dotless n
  · exact absurd (lastPart_of_dotless hdot) h
  · obtain ⟨a, b, hab, hb⟩ := exists_last_dot (not_not.mp hdot)
    refine ⟨String.ofList a, ?_⟩
    rw [← String.toList_inj, toList_key, lastPart, hab, rtakeWhile_key hb, String.toList_ofList,
      String.toList_ofList]

theorem Reads.getCol_qualified (hs : PlainScope tabs) (h : Reads tabs parts row) (hc : Dotless c)
    {i : Nat} {v : String} (ht : tabs[i]? = some t) (hp : parts[i]? = some p)
    (hq : q = t.name ∨ q = t.bare) (hv : valueOf t p c = some v) :
    getCol ord row (q ++ "." ++ c) = some v := by
  have htmem := List.mem_of_getElem? ht
  have hlast := lastPart_qualifier hs htmem hq
  -- a qualified key with this bare name is of this table
  have hsame : ∀ {j u}, tabs[j]? = some u → lastPart u.name = lastPart q → j = i := fun hu hl =>
    hs.index_eq hu ht (hl.trans hlast)
  by_cases hown : 1 ≤ i ∧ q = t.name
  · rw [hown.2]
    exact getCol_of_find ((h.qualified i t p hown.1 ht hp c hc).trans hv)
  · have hexact : row.find (q ++ "." ++ c) = none := by
      by_contra hsome
      rcases h.keys _ (Option.isSome_iff_ne_none.mpr hsome) with
        hdot | ⟨j, u, k, hj, -, hu, hk, heq⟩
      · exact not_dotless_key _ _ hdot
      · obtain ⟨hname, -⟩ := key_inj hc hk heq
        obtain rfl := hsame hu (by rw [hname])
        obtain rfl := Option.some.inj (hu.symm.trans ht)
        exact hown ⟨hj, hname⟩
    have htrigger : newOldKey (q ++ "." ++ c) = none := by
      rcases hq with rfl | rfl
      · exact (hs.not_trigger t htmem c).1
      · exact (hs.not_trigger t htmem c).2
    have hmatch : ∀ k ∈ ord.keys row, endsWith ("." ++ q ++ "." ++ c) k →
        1 ≤ i ∧ k = t.name ++ "." ++ c := by
      intro k hk hends
      rcases h.keys k ((ord.mem_keys row k).mp hk) with hdot | ⟨j, u, k', hj, -, hu, hk', rfl⟩
      · rw [String.append_assoc, String.append_assoc, not_endsWith_dotless hdot] at hends
        cases hends
      · obtain ⟨rfl, hl⟩ := endsWith_key hk' hc hends
        obtain rfl := hsame hu hl
        obtain rfl := Option.some.inj (hu.symm.trans ht)
        exact ⟨hj, rfl⟩
    rw [getCol, hexact]
    simp only [htrigger, Option.bind_none, lastDot_key hc]
    cases hfind : (ord.keys row).find? (endsWith ("." ++ q ++ "." ++ c)) with
    | some k =>
      obtain ⟨hpos, rfl⟩ := hmatch k (List.mem_of_find?_eq_some hfind) (List.find?_some hfind)
      exact (h.qualified i t p hpos ht hp c hc).trans hv
    | none =>
      rw [List.find?_eq_none] at hfind
      have hzero : i = 0 := by
        by_contra hpos
        have hbare : q = t.bare := hq.resolve_left fun he => hown ⟨by omega, he⟩
        have hne : lastPart t.name ≠ t.name := by
          rw [← hs.bare_eq t htmem, ← hbare]
          exact fun he => hown ⟨by omega, he⟩
        obtain ⟨pre, hpre⟩ := eq_key_of_lastPart_ne hne
        have hkey : (row.find (t.name ++ "." ++ c)).isSome := by
          rw [h.qualified i t p (by omega) ht hp c hc, hv]
          rfl
        refine hfind _ ((ord.mem_keys row _).mpr hkey) (endsWith_iff.mpr ⟨pre, ?_⟩)
        rw [hbare, hs.bare_eq t htmem]
        conv_lhs => rw [hpre]
        simp only [String.append_assoc]
      subst hzero
      exact h.find_plain hc ht hp hv fun j hj => absurd hj (by omega)

end

/-! ### The owner of a name -/

section

variable {ev : Evaluator} {i : Nat} {t : ScopeTable} {name c : String}

/-- The column `c` of the table `t`, as `name` names it. -/
structure Owns (tabs : List ScopeTable) (name : String) (i : Nat) (t : ScopeTable) (c : String) :
    Prop where
  table : tabs[i]? = some t
  column : c ∈ t.columns
  named : (∃ q, name = q ++ "." ++ c ∧ Dotless c ∧ (q = t.name ∨ q = t.bare)) ∨
    (name = c ∧ ∀ j < i, ∀ u, tabs[j]? = some u → c ∉ u.columns)

theorem columnOwner_eq_some (h : columnOwner tabs name = some i) : ∃ t c, Owns tabs name i t c := by
  rw [columnOwner] at h
  cases hdot : lastDot name with
  | some qc =>
    obtain ⟨q, c⟩ := qc
    obtain ⟨hname, hc⟩ := lastDot_eq_some hdot
    simp only [hdot] at h
    obtain ⟨j, hj, hcol⟩ := Option.bind_eq_some_iff.mp h
    split_ifs at hcol with hmem
    obtain rfl := Option.some.inj hcol
    rw [List.findIdx?_eq_some_iff_getElem] at hj
    obtain ⟨hlt, hq, -⟩ := hj
    have ht : tabs[j]? = some tabs[j] := List.getElem?_eq_getElem hlt
    rw [ht] at hmem
    refine ⟨tabs[j], c, ht, List.contains_iff_mem.mp hmem, .inl ⟨q, hname, hc, ?_⟩⟩
    simpa using hq
  | none =>
    simp only [hdot] at h
    rw [List.findIdx?_eq_some_iff_getElem] at h
    obtain ⟨hlt, hcol, hfirst⟩ := h
    refine ⟨tabs[i], name, List.getElem?_eq_getElem hlt, List.contains_iff_mem.mp hcol,
      .inr ⟨rfl, fun j hj u hu => ?_⟩⟩
    obtain ⟨hjlt, rfl⟩ := List.getElem?_eq_some_iff.mp hu
    simpa using hfirst j hj

def PartsKeyed (tabs : List ScopeTable) (parts : List (Option Row)) : Prop :=
  ∀ (i : Nat) t p, tabs[i]? = some t → parts[i]? = some p → PartKeyed t p

theorem PartKeyed.valueOf_isSome (h : PartKeyed t p) (hc : c ∈ t.columns) :
    ∃ v, valueOf t p c = some v := by
  cases p with
  | some r => exact Option.isSome_iff_exists.mp ((h r rfl c).mpr (.inl hc))
  | none => exact ⟨executorNull, if_pos hc⟩

theorem PartKeyed.valueOf_eq_none (h : PartKeyed t p) (hc : c ∉ t.columns)
    (hsys : c ≠ "_xmin" ∧ c ≠ "_xmax") : valueOf t p c = none := by
  cases p with
  | some r =>
    by_contra hsome
    have := (h r rfl c).mp (Option.isSome_iff_ne_none.mpr hsome)
    tauto
  | none => exact if_neg hc

theorem Owns.getCol_joined (hown : Owns tabs name i t c) (hs : PlainScope tabs)
    (h : Reads tabs parts row) (hkeyed : PartsKeyed tabs parts) (hp : parts[i]? = some p)
    (ord : MapOrder) : getCol ord row name = valueOf t p c := by
  have htmem := List.mem_of_getElem? hown.table
  obtain ⟨v, hv⟩ := (hkeyed i t p hown.table hp).valueOf_isSome hown.column
  rw [hv]
  rcases hown.named with ⟨q, rfl, hc, hq⟩ | ⟨rfl, hfirst⟩
  · exact h.getCol_qualified hs hc hown.table hp hq hv
  · refine getCol_of_find (h.find_plain (hs.dotless t htmem name hown.column) hown.table hp hv ?_)
    intro j hj u x hu hx
    exact (hkeyed j u x hu hx).valueOf_eq_none (hfirst j hj u hu)
      (hs.not_system t htmem name hown.column)

theorem Owns.getCol_base (hown : Owns tabs name i t c) (hs : PlainScope tabs)
    (hr : PartKeyed t (some r)) (ord : MapOrder) : getCol ord r name = r.find c := by
  have htmem := List.mem_of_getElem? hown.table
  have hdot : ∀ k, (r.find k).isSome → Dotless k := fun k hk => hr.dotless hs htmem hk
  rcases hown.named with ⟨q, rfl, hc, -⟩ | ⟨rfl, -⟩
  · exact getCol_base_qualified hdot q hc
  · exact getCol_base_plain hdot (hs.dotless t htmem name hown.column)

/-- No comparison is with a word that is the name of a system cell. -/
def Cond.NoSystemWords : Cond → Prop
  | .leaf condition => ∀ w, condition.value = .literal w false → w ≠ "_xmin" ∧ w ≠ "_xmax"
  | .and lhs rhs => lhs.NoSystemWords ∧ rhs.NoSystemWords
  | .or lhs rhs => lhs.NoSystemWords ∧ rhs.NoSystemWords
  | .not inner => inner.NoSystemWords

/-- A word that no table has as a column reads nothing, in a joined row and in a table's row. -/
theorem wordValue_owner (hs : PlainScope tabs) (h : Reads tabs parts row)
    (hkeyed : PartsKeyed tabs parts) {w : String} {quoted : Bool}
    (hsys : quoted = false → w ≠ "_xmin" ∧ w ≠ "_xmax") (hfree : ¬ (identLike ev.isNumber w quoted ∧
      ('.' ∈ w.toList ∨ tabs.any (fun t => t.columns.contains w))))
    (ht : tabs[i]? = some t) (hp : parts[i]? = some (some r)) :
    ev.wordValue row (.literal w quoted) = ev.wordValue r (.literal w quoted) := by
  simp only [Evaluator.wordValue]
  split_ifs with hident
  · have hq : quoted = false := by
      rw [identLike, Bool.and_eq_true, Bool.and_eq_true, Bool.not_eq_true'] at hident
      exact hident.1.1
    have hno := not_or.mp fun hor => hfree ⟨hident, hor⟩
    have hcols : ∀ u ∈ tabs, w ∉ u.columns := by
      intro u hu hmem
      exact hno.2 (List.any_eq_true.mpr ⟨u, hu, List.contains_iff_mem.mpr hmem⟩)
    have hnone : ∀ (j : Nat) u p, tabs[j]? = some u → parts[j]? = some p →
        valueOf u p w = none := fun j u p hu hp' =>
      (hkeyed j u p hu hp').valueOf_eq_none (hcols u (List.mem_of_getElem? hu)) (hsys hq)
    have hr : PartKeyed t (some r) := hkeyed i t (some r) ht hp
    have hbase : getCol ev.ord r w = r.find w :=
      getCol_base_plain (fun k hk => hr.dotless hs (List.mem_of_getElem? ht) hk) hno.1
    rw [h.getCol_word hno.1 hnone, hbase]
    exact (hnone i t (some r) ht hp).symm
  · rfl

theorem evalSingle3_owner {leaf : Leaf} (hs : PlainScope tabs) (h : Reads tabs parts row)
    (hkeyed : PartsKeyed tabs parts) (hword : (Cond.leaf leaf).NoSystemWords)
    (hown : leafOwner ev.isNumber tabs leaf = some i) (hp : parts[i]? = some (some r)) :
    ev.evalSingle3 row leaf = ev.evalSingle3 r leaf := by
  have hcol : ∀ col, columnOwner tabs col = some i →
      getCol ev.ord row col = getCol ev.ord r col ∧ ∃ t, tabs[i]? = some t := by
    intro col hc
    obtain ⟨t, c, ho⟩ := columnOwner_eq_some hc
    have hr : PartKeyed t (some r) := hkeyed i t (some r) ho.table hp
    exact ⟨(ho.getCol_joined hs h hkeyed hp ev.ord).trans (ho.getCol_base hs hr ev.ord).symm,
      t, ho.table⟩
  rw [leafOwner] at hown
  cases hleft : leaf.column with
  | none =>
    rw [hleft] at hown
    cases hown
  | some col =>
    simp only [hleft] at hown
    split_ifs at hown
    cases hvalue : leaf.value with
    | literal w quoted =>
      simp only [hvalue] at hown
      split_ifs at hown with hfree
      obtain ⟨hget, t, ht⟩ := hcol col hown
      have hsys : quoted = false → w ≠ "_xmin" ∧ w ≠ "_xmax" := by
        rintro rfl
        exact hword w hvalue
      simp only [Evaluator.evalSingle3, hleft, hvalue, hget,
        wordValue_owner hs h hkeyed hsys hfree ht hp]
    | between | literalList =>
      simp only [hvalue] at hown
      simp only [Evaluator.evalSingle3, hleft, hvalue, (hcol col hown).1]
    | arith | subquery =>
      simp only [hvalue] at hown
      cases hown

theorem evalCond3_owner {cond : Cond} (hs : PlainScope tabs) (h : Reads tabs parts row)
    (hkeyed : PartsKeyed tabs parts) (hword : cond.NoSystemWords)
    (hown : exprOwner ev.isNumber tabs cond = some i) (hp : parts[i]? = some (some r)) :
    ev.evalCond3 row cond = ev.evalCond3 r cond := by
  induction cond with
  | leaf condition => exact evalSingle3_owner hs h hkeyed hword hown hp
  | and lhs rhs ihl ihr | or lhs rhs ihl ihr =>
    rw [exprOwner] at hown
    split_ifs at hown with heq
    simp only [Evaluator.evalCond3, ihl hword.1 hown, ihr hword.2 (heq ▸ hown)]
  | not inner ih =>
    rw [exprOwner] at hown
    simp only [Evaluator.evalCond3, ih hword hown]

end

end RusqlEngine.Pushdown
