import Pseudocode.Text.Word

/-!
# Words are runs

A word of a text is a run of word characters that goes on in neither direction (`Run`). The
function that collects words reads the text once, and keeps the word under way. It finds every run,
and finds them in the order in which they stand: a word that is found before all places of another
one has a run before all runs of the other (`mem_words`, `earlier_of_index`).

Everything comes from what a separating character does: it is in no run, so the runs of a text are
those before it and those behind it (`run_append_separator`).
-/

namespace Pseudocode.Text

variable {before word after : List Char}

/-- The text is `before`, `word` and `after`, and `word` is a run of word characters that cannot be
made longer. -/
structure Run (cs before word after : List Char) : Prop where
  eq : cs = before ++ word ++ after
  ne_nil : word ≠ []
  all : ∀ c ∈ word, isWordPart c = true
  front : ∀ c, before.getLast? = some c → isWordPart c = false
  back : ∀ c, after.head? = some c → isWordPart c = false

/-- Some run of the first word stands before every run of the second. -/
def Earlier (cs first second : List Char) : Prop :=
  ∃ before after, Run cs before first after
    ∧ ∀ before' after', Run cs before' second after' → before.length < before'.length

/-! ## Separators -/

section

variable {xs ys : List Char} {c : Char} (hc : isWordPart c = false)

include hc

/-- No run goes over a separator. -/
theorem Run.split (h : Run (xs ++ c :: ys) before word after) :
    (∃ rest, Run xs before word rest ∧ after = rest ++ c :: ys)
      ∨ ∃ rest, Run ys rest word after ∧ before = xs ++ c :: rest := by
  obtain ⟨heq, hne, hall, hfront, hback⟩ := h
  have hword : c ∉ word := by
    intro hmem
    rw [hall c hmem] at hc
    exact Bool.noConfusion hc
  rcases List.append_eq_append_iff.mp heq with ⟨left, hleft, hright⟩ | ⟨right, hright, hafter⟩
  · cases left with
    | nil =>
        rw [List.append_nil] at hleft
        refine .inl ⟨[], ⟨?_, hne, hall, hfront, ?_⟩, hright.symm⟩
        · rw [List.append_nil, hleft]
        · intro d hd
          exact absurd hd (by simp)
    | cons d left =>
        obtain ⟨rfl, hys⟩ := List.cons.inj hright
        -- the separator stands before the word, as it is not in it
        rcases List.append_eq_append_iff.mp hleft with ⟨more, -, hmore⟩ | ⟨more, hbefore, hmore⟩
        · rw [hmore] at hword
          exact absurd (List.mem_append_right more List.mem_cons_self) hword
        · cases more with
          | nil =>
              rw [List.nil_append] at hmore
              rw [← hmore] at hword
              exact absurd List.mem_cons_self hword
          | cons d more =>
              obtain ⟨rfl, rfl⟩ := List.cons.inj hmore
              refine .inr ⟨more, ⟨hys, hne, hall, ?_, hback⟩, hbefore⟩
              intro d hd
              refine hfront d ?_
              rw [hbefore, List.getLast?_append, List.getLast?_cons, hd]
              rfl
  · refine .inl ⟨right, ⟨hright, hne, hall, hfront, ?_⟩, hafter⟩
    intro d hd
    refine hback d ?_
    rw [hafter, List.head?_append, hd, Option.some_or]

/-- The runs of a text are those before a separator and those behind it. -/
theorem run_append_separator : Run (xs ++ c :: ys) before word after ↔
    (∃ rest, Run xs before word rest ∧ after = rest ++ c :: ys)
      ∨ ∃ rest, Run ys rest word after ∧ before = xs ++ c :: rest := by
  constructor
  · exact Run.split hc
  · rintro (⟨rest, ⟨rfl, hne, hall, hfront, hback⟩, rfl⟩ | ⟨rest,
      ⟨rfl, hne, hall, hfront, hback⟩, rfl⟩)
    · refine ⟨(List.append_assoc ..), hne, hall, hfront, ?_⟩
      intro d hd
      cases rest with
      | nil =>
          obtain rfl : c = d := Option.some.inj hd
          exact hc
      | cons e rest => exact hback d hd
    · refine ⟨?_, hne, hall, ?_, hback⟩
      · rw [List.append_assoc, List.append_assoc, List.append_assoc, List.cons_append]
      · intro d hd
        rw [List.getLast?_append, List.getLast?_cons, Option.some_or] at hd
        cases hrest : rest.getLast? with
        | none =>
            rw [hrest] at hd
            obtain rfl : c = d := Option.some.inj hd
            exact hc
        | some e =>
            rw [hrest] at hd
            obtain rfl : e = d := Option.some.inj hd
            exact hfront e hrest

end

/-- A text of word characters is a run as a whole, and has no other. -/
theorem run_of_all {xs : List Char} (hxs : ∀ c ∈ xs, isWordPart c = true) :
    Run xs before word after ↔ xs ≠ [] ∧ before = [] ∧ word = xs ∧ after = [] := by
  constructor
  · rintro ⟨rfl, hne, -, hfront, hback⟩
    have hbefore : before = [] := by
      cases hlast : before.getLast? with
      | none => exact List.getLast?_eq_none_iff.mp hlast
      | some c =>
          have htrue := hxs c (by simp [List.mem_of_getLast? hlast])
          rw [hfront c hlast] at htrue
          exact absurd htrue Bool.false_ne_true
    have hafter : after = [] := by
      cases after with
      | nil => rfl
      | cons c rest =>
          have htrue := hxs c (by simp)
          rw [hback c rfl] at htrue
          exact absurd htrue Bool.false_ne_true
    subst hbefore hafter
    exact ⟨by simpa using hne, rfl, by simp, rfl⟩
  · rintro ⟨hne, rfl, rfl, rfl⟩
    exact ⟨by simp, hne, hxs, by simp, by simp⟩

/-! ## Collecting -/

/-- The word under way, if there is one, with the number of characters before it. -/
def pending (start : Nat) (current : List Char) : List (Nat × List Char) :=
  if current.isEmpty then [] else [(start, current.reverse)]

/-- Words as they are collected, each with the number of characters before it. -/
def placedFrom (start : Nat) (current : List Char) : List Char → List (Nat × List Char)
  | [] => pending start current
  | c :: rest =>
    if isWordPart c then placedFrom start (c :: current) rest
    else pending start current ++ placedFrom (start + current.length + 1) [] rest

/-- Without their places these are the words that are collected. -/
theorem map_snd_placedFrom (start : Nat) (current cs : List Char) :
    (placedFrom start current cs).map Prod.snd = wordsFrom current cs := by
  induction cs generalizing start current with
  | nil =>
      rw [placedFrom, wordsFrom, pending]
      split <;> rfl
  | cons c rest ih =>
      rw [placedFrom, wordsFrom]
      split
      · exact ih start (c :: current)
      · rw [List.map_append, ih, pending]
        split <;> rfl

theorem eq_of_mem_pending {start n : Nat} {current : List Char}
    (h : (n, word) ∈ pending start current) : n = start := by
  unfold pending at h
  split at h
  · exact absurd h List.not_mem_nil
  · exact congrArg Prod.fst (List.mem_singleton.mp h)

theorem le_of_mem_placedFrom {start n : Nat} {current cs : List Char}
    (h : (n, word) ∈ placedFrom start current cs) :
    start ≤ n := by
  induction cs generalizing start current with
  | nil => exact Nat.le_of_eq (eq_of_mem_pending h).symm
  | cons c rest ih =>
      rw [placedFrom] at h
      split at h
      · exact ih h
      · rcases List.mem_append.mp h with h | h
        · exact Nat.le_of_eq (eq_of_mem_pending h).symm
        · have := ih h
          omega

theorem pending_increasing (start : Nat) (current : List Char) :
    (pending start current).Pairwise fun a b => a.1 < b.1 := by
  unfold pending
  split
  · exact List.Pairwise.nil
  · exact List.pairwise_singleton _ _

/-- Words are collected from the front to the back. -/
theorem placedFrom_increasing (start : Nat) (current cs : List Char) :
    (placedFrom start current cs).Pairwise fun a b => a.1 < b.1 := by
  induction cs generalizing start current with
  | nil => exact pending_increasing start current
  | cons c rest ih =>
      rw [placedFrom]
      split
      · exact ih start (c :: current)
      · refine List.pairwise_append.mpr ⟨pending_increasing start current, ih _ [], ?_⟩
        intro a ha b hb
        have hstart := eq_of_mem_pending ha
        have hle := le_of_mem_placedFrom hb
        omega

/-- The word under way is a run by itself, unless it is empty. -/
theorem mem_pending {start n : Nat} {current : List Char}
    (hcurrent : ∀ c ∈ current.reverse, isWordPart c = true) :
    (n, word) ∈ pending start current ↔
      ∃ before rest, Run current.reverse before word rest ∧ n = start + before.length := by
  unfold pending
  cases current with
  | nil =>
      refine iff_of_false List.not_mem_nil ?_
      rintro ⟨before, rest, hrun, -⟩
      exact ((run_of_all hcurrent).mp hrun).1 rfl
  | cons d current =>
      rw [List.isEmpty_cons, if_neg Bool.false_ne_true, List.mem_singleton, Prod.mk.injEq]
      constructor
      · rintro ⟨rfl, rfl⟩
        exact ⟨[], [], (run_of_all hcurrent).mpr ⟨by simp, rfl, rfl, rfl⟩, rfl⟩
      · rintro ⟨before, rest, hrun, rfl⟩
        obtain ⟨-, rfl, rfl, -⟩ := (run_of_all hcurrent).mp hrun
        exact ⟨rfl, rfl⟩

/-- The words that are collected are the runs of the text, which begins with the word under way. -/
theorem mem_placedFrom {start n : Nat} {current cs : List Char}
    (hcurrent : ∀ c ∈ current.reverse, isWordPart c = true) :
    (n, word) ∈ placedFrom start current cs ↔
      ∃ before after, Run (current.reverse ++ cs) before word after ∧
      n = start + before.length := by
  induction cs generalizing start current with
  | nil => rw [placedFrom, List.append_nil, mem_pending hcurrent]
  | cons c rest ih =>
      rw [placedFrom]
      split
      case isTrue hc =>
        have hmore : ∀ d ∈ (c :: current).reverse, isWordPart d = true := by
          intro d hd
          rw [List.reverse_cons, List.mem_append, List.mem_singleton] at hd
          rcases hd with hd | rfl
          · exact hcurrent d hd
          · exact hc
        rw [ih hmore, List.reverse_cons, List.append_assoc, List.singleton_append]
      case isFalse hc =>
        have hseparator : isWordPart c = false := Bool.eq_false_iff.mpr hc
        have hrest := @ih (start + current.length + 1) [] (fun d hd => absurd hd List.not_mem_nil)
        rw [List.reverse_nil, List.nil_append] at hrest
        rw [List.mem_append, mem_pending hcurrent, hrest]
        simp only [run_append_separator hseparator]
        constructor
        · rintro (⟨before, behind, hrun, rfl⟩ | ⟨before, after, hrun, rfl⟩)
          · exact ⟨before, _, .inl ⟨behind, hrun, rfl⟩, rfl⟩
          · refine ⟨_, after, .inr ⟨before, hrun, rfl⟩, ?_⟩
            rw [List.length_append, List.length_reverse, List.length_cons]
            omega
        · rintro ⟨before, after, ⟨behind, hrun, -⟩ | ⟨more, hrun, rfl⟩, rfl⟩
          · exact .inl ⟨before, behind, hrun, rfl⟩
          · refine .inr ⟨more, after, hrun, ?_⟩
            rw [List.length_append, List.length_reverse, List.length_cons]
            omega

/-! ## The words of a text -/

variable {cs : List Char}

/-- The words with their places are the runs of the text with theirs. -/
theorem mem_placed {n : Nat} :
    (n, word) ∈ placedFrom 0 [] cs ↔ ∃ before after, Run cs before word after ∧
      n = before.length := by
  have hmem := @mem_placedFrom word 0 n [] cs (fun d hd => absurd hd List.not_mem_nil)
  simpa only [List.reverse_nil, List.nil_append, Nat.zero_add] using hmem

/-- The words of a text are its runs. -/
theorem mem_words : word ∈ words cs ↔ ∃ before after, Run cs before word after := by
  rw [words, ← map_snd_placedFrom 0, List.mem_map]
  constructor
  · rintro ⟨⟨n, w⟩, hmem, rfl⟩
    obtain ⟨before, after, hrun, -⟩ := mem_placed.mp hmem
    exact ⟨before, after, hrun⟩
  · rintro ⟨before, after, hrun⟩
    exact ⟨(before.length, word), mem_placed.mpr ⟨before, after, hrun, rfl⟩, rfl⟩

/-- A word that is found before all places of another has a run before all runs of the other. -/
theorem earlier_of_index {first second : List Char} {i : Nat}
    (hfirst : (words cs)[i]? = some first) (hsecond : ∀ j, (words cs)[j]? = some second → i < j) :
    Earlier cs first second := by
  have hwords : words cs = (placedFrom 0 [] cs).map Prod.snd := (map_snd_placedFrom 0 [] cs).symm
  rw [hwords, List.getElem?_map, Option.map_eq_some_iff] at hfirst
  obtain ⟨⟨n, w⟩, hplace, rfl⟩ := hfirst
  obtain ⟨before, after, hrun, rfl⟩ := mem_placed.mp (List.mem_of_getElem? hplace)
  refine ⟨before, after, hrun, ?_⟩
  intro before' after' hrun'
  obtain ⟨j, hj⟩ := List.getElem?_of_mem (mem_placed.mpr ⟨before', after', hrun', rfl⟩)
  have hlt := hsecond j (by rw [hwords, List.getElem?_map, hj]; rfl)
  obtain ⟨hi, hplace⟩ := List.getElem?_eq_some_iff.mp hplace
  obtain ⟨hj', hj⟩ := List.getElem?_eq_some_iff.mp hj
  have hincreasing := List.pairwise_iff_getElem.mp (placedFrom_increasing 0 [] cs) i j hi hj' hlt
  rwa [hplace, hj] at hincreasing

end Pseudocode.Text
