import Mathlib.Data.List.Basic

/-!
# Parts carried out one after the other

A list of parts, each of which changes a state and answers with a message or an error; the
first error ends the list, and the state stays as the part that failed has left it.
-/

namespace Parts

variable {σ α ε β : Type*} (step : σ → α → σ × Except ε β)

/-- `for (part) { last = step(part); if (last.is_err()) return last; } return last;` -/
def run (s : σ) (last : Except ε β) : List α → σ × Except ε β
  | [] => (s, last)
  | a :: rest =>
    match step s a with
    | (s', .ok m) => run s' (.ok m) rest
    | (s', .error e) => (s', .error e)

def Refused (s : σ) (a : α) : Prop :=
  ∃ e, (step s a).2 = .error e

def after (s : σ) (parts : List α) : σ :=
  parts.foldl (fun s a => (step s a).1) s

def InTurn (accepts : σ → α → Prop) (s : σ) : List α → Prop
  | [] => True
  | a :: rest => accepts s a ∧ InTurn accepts (step s a).1 rest

abbrev AllPass (s : σ) (parts : List α) : Prop :=
  InTurn step (fun s a => ¬ Refused step s a) s parts

variable {step}

theorem inTurn_congr {p q : σ → α → Prop} (h : ∀ s a, p s a ↔ q s a) : ∀ {s : σ}
    {parts : List α}, InTurn step p s parts ↔ InTurn step q s parts
  | _, [] => Iff.rfl
  | s, a :: _ => and_congr (h s a) (inTurn_congr h)

theorem not_refused_iff {s : σ} {a : α} : ¬ Refused step s a ↔ ∃ m, (step s a).2 = .ok m := by
  rw [Refused]
  cases (step s a).2 <;> simp

@[simp] theorem after_cons (s : σ) (a : α) (rest : List α) :
    after step s (a :: rest) = after step (step s a).1 rest :=
  rfl

theorem run_cons_of_refused {s : σ} {a : α} (last : Except ε β) (rest : List α)
    (h : Refused step s a) : run step s last (a :: rest) = step s a := by
  obtain ⟨e, he⟩ := h
  rw [run]
  cases hstep : step s a with
  | mk s' r =>
    rw [hstep] at he
    subst he
    rfl

theorem run_cons_of_pass {s : σ} {a : α} (last : Except ε β) (rest : List α)
    (h : ¬ Refused step s a) :
    run step s last (a :: rest) = run step (step s a).1 (step s a).2 rest := by
  obtain ⟨m, hm⟩ := not_refused_iff.mp h
  rw [run]
  cases hstep : step s a with
  | mk s' r =>
    rw [hstep] at hm
    subst hm
    rfl

theorem run_of_allPass : ∀ {parts : List α} {s : σ} {m : β}, AllPass step s parts →
    (run step s (.ok m) parts).1 = after step s parts ∧ ∃ m', (run step s (.ok m) parts).2 = .ok m'
  | [], s, m, _ => ⟨rfl, m, rfl⟩
  | a :: rest, s, m, h => by
      obtain ⟨m', hm'⟩ := not_refused_iff.mp h.1
      rw [run_cons_of_pass _ _ h.1, hm', after_cons]
      exact run_of_allPass h.2

/-- The run up to a part that is refused after others that pass. -/
theorem run_append_of_refused : ∀ {pre : List α} {s : σ} {a : α} (last : Except ε β)
    (post : List α), AllPass step s pre → Refused step (after step s pre) a →
    run step s last (pre ++ a :: post) = step (after step s pre) a
  | [], _, _, last, post, _, ha => run_cons_of_refused last post ha
  | b :: pre, s, a, last, post, h, ha => by
      rw [List.cons_append, run_cons_of_pass _ _ h.1, after_cons]
      exact run_append_of_refused _ post h.2 ha

/-- Either every part passes or there is a first one that is refused. -/
theorem allPass_or_exists_refused : ∀ (s : σ) (parts : List α), AllPass step s parts ∨
    ∃ pre a post, parts = pre ++ a :: post ∧ AllPass step s pre ∧ Refused step (after step s pre) a
  | _, [] => .inl trivial
  | s, a :: rest => by
      by_cases ha : Refused step s a
      · exact .inr ⟨[], a, rest, rfl, trivial, ha⟩
      · rcases allPass_or_exists_refused (step s a).1 rest with h | ⟨pre, b, post, rfl, hpre, hb⟩
        · exact .inl ⟨ha, h⟩
        · exact .inr ⟨a :: pre, b, post, rfl, ⟨ha, hpre⟩, hb⟩

theorem run_isOk_iff {s : σ} {m : β} {parts : List α} :
    (∃ m', (run step s (.ok m) parts).2 = .ok m') ↔ AllPass step s parts := by
  constructor
  · rintro ⟨m', hm'⟩
    rcases allPass_or_exists_refused s parts with h | ⟨pre, a, post, rfl, hpre, e, he⟩
    · exact h
    · rw [run_append_of_refused _ _ hpre ⟨e, he⟩, he] at hm'
      exact nomatch hm'
  · exact fun h => (run_of_allPass h).2

/-- When a part that passes keeps the invariant exactly in the case `p`, it holds after each part
exactly when `p` holds of each in turn. -/
theorem inTurn_iff_invariant {I : σ → Prop} {passes p : σ → α → Prop}
    (hstep : ∀ s a, I s → passes s a → (I (step s a).1 ↔ p s a)) :
    ∀ {parts : List α} {s : σ}, I s → InTurn step passes s parts →
      (InTurn step p s parts ↔ ∀ pre, pre <+: parts → I (after step s pre))
  | [], s, hs, _ => by
      refine iff_of_true trivial fun pre hpre => ?_
      rw [List.prefix_nil.mp hpre]
      exact hs
  | a :: rest, s, hs, hpass => by
      constructor
      · rintro ⟨ha, hrest⟩ pre hpre
        have hnext := (hstep s a hs hpass.1).mpr ha
        rcases List.prefix_cons_iff.mp hpre with rfl | ⟨tail, rfl, htail⟩
        · exact hs
        · exact (inTurn_iff_invariant hstep hnext hpass.2).mp hrest tail htail
      · intro h
        have hnext : I (step s a).1 := h [a] (List.prefix_cons_inj a |>.mpr List.nil_prefix)
        refine ⟨(hstep s a hs hpass.1).mp hnext, ?_⟩
        refine (inTurn_iff_invariant hstep hnext hpass.2).mpr fun pre hpre => ?_
        exact h (a :: pre) ((List.prefix_cons_inj a).mpr hpre)

section

variable (accepts idle clean started : σ → α → Prop)

/-- Parts of which it is known when they are refused, and that a refused part leaves the state as it
was in the case `clean`. -/
structure Known (step : σ → α → σ × Except ε β) : Prop where
  refused_iff : ∀ {s a}, Refused step s a ↔ ¬ accepts s a
  idle_left : ∀ {s a}, idle s a → (step s a).1 = s
  clean_left : ∀ {s a}, ¬ accepts s a → clean s a → (step s a).1 = s

/-- The first part that does anything is refused, and leaves the state as it was. -/
def FirstRefused (s : σ) (parts : List α) : Prop :=
  ∃ pre a post, parts = pre ++ a :: post ∧ (∀ b ∈ pre, idle s b) ∧ ¬ accepts s a ∧ clean s a

/-- A part is refused behind one that does something, or after it has started. -/
def RefusedLate (step : σ → α → σ × Except ε β) (s : σ) (parts : List α) : Prop :=
  ∃ pre a post, parts = pre ++ a :: post ∧ InTurn step accepts s pre ∧
    ¬ accepts (after step s pre) a ∧ ((∃ b ∈ pre, ¬ idle s b) ∨ started (after step s pre) a)

end

namespace Known

variable {accepts idle clean : σ → α → Prop} {s : σ} {m : β} {parts : List α}

theorem allPass_iff (h : Known accepts idle clean step) :
    AllPass step s parts ↔ InTurn step accepts s parts :=
  inTurn_congr fun s a => by rw [h.refused_iff, not_not]

theorem run_of_firstRefused (h : Known accepts idle clean step) {a : α} (post : List α)
    (ha : ¬ accepts s a) (hclean : clean s a) : ∀ {pre : List α} (last : Except ε β),
    (∀ b ∈ pre, idle s b) → (run step s last (pre ++ a :: post)).1 = s
  | [], last, _ => by
      rw [List.nil_append, run_cons_of_refused _ _ (h.refused_iff.mpr ha)]
      exact h.clean_left ha hclean
  | b :: pre, last, hpre => by
      have hb := h.idle_left (hpre b List.mem_cons_self)
      rw [List.cons_append]
      by_cases hrefused : Refused step s b
      · rw [run_cons_of_refused _ _ hrefused, hb]
      · rw [run_cons_of_pass _ _ hrefused, hb]
        exact h.run_of_firstRefused post ha hclean _ fun c hc => hpre c (.tail _ hc)

theorem after_idle (h : Known accepts idle clean step) : ∀ {pre : List α},
    (∀ b ∈ pre, idle s b) → after step s pre = s
  | [], _ => rfl
  | b :: pre, hpre => by
      rw [after_cons, h.idle_left (hpre b List.mem_cons_self)]
      exact h.after_idle fun c hc => hpre c (.tail _ hc)

/-- A run without an error, or whose first part that does anything is the refused one, has left the
state as it was when it fails. -/
theorem undone (h : Known accepts idle clean step)
    (hfirst : InTurn step accepts s parts ∨ FirstRefused accepts idle clean s parts) :
    ∀ e, (run step s (.ok m) parts).2 = .error e → (run step s (.ok m) parts).1 = s := by
  intro e he
  rcases hfirst with hall | ⟨pre, a, post, rfl, hpre, ha, hclean⟩
  · obtain ⟨m', hm'⟩ := (run_of_allPass (m := m) (h.allPass_iff.mpr hall)).2
    rw [hm'] at he
    cases he
  · exact h.run_of_firstRefused post ha hclean _ hpre

/-- Any other run that leaves `P` when it fails is refused late, where a part that is refused first
and leaves `P` is a clean one or has started. -/
theorem cases_of_undone (h : Known accepts idle clean step) (P : σ → Prop) (started : σ → α → Prop)
    (hfirst : ∀ a, ¬ accepts s a → P (step s a).1 → clean s a ∨ started s a)
    (hundone : ∀ e, (run step s (.ok m) parts).2 = .error e → P (run step s (.ok m) parts).1) :
    InTurn step accepts s parts ∨ FirstRefused accepts idle clean s parts ∨
      RefusedLate accepts idle started step s parts := by
  have hparts : AllPass step s parts ∨ _ := allPass_or_exists_refused s parts
  rcases hparts with hall | ⟨pre, a, post, rfl, hpre, hrefused⟩
  · exact .inl (h.allPass_iff.mp hall)
  have ha := h.refused_iff.mp hrefused
  have hlate := h.allPass_iff.mp hpre
  by_cases hidle : ∀ b ∈ pre, idle s b
  · have hafter := h.after_idle hidle
    obtain ⟨e, he⟩ := hrefused
    rw [run_append_of_refused (.ok m) post hpre ⟨e, he⟩, hafter] at hundone
    rw [hafter] at ha he
    rcases hfirst a ha (hundone e he) with hclean | hstarted
    · exact .inr (.inl ⟨pre, a, post, rfl, hidle, ha, hclean⟩)
    · exact .inr (.inr ⟨pre, a, post, rfl, hlate, by rwa [hafter], .inr (by rwa [hafter])⟩)
  · exact .inr (.inr ⟨pre, a, post, rfl, hlate, ha, .inl (by simpa using hidle)⟩)

end Known

end Parts
