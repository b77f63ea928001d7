import Mathlib
import Pseudocode.Proofs.Comparing
import Pseudocode.Proofs.Runs
import Pseudocode.Proofs.Scores
import Pseudocode.Proofs.WordAtCaret

/-!
# What is suggested, and in which order

The candidates are the standing ones, and behind them the words of the source that are neither
standing nor part of what is being typed, each once and in the order in which they first stand
there (`candidates_eq`, `Offered`). They are then sorted by their scores.

A sort by comparisons of doubles is a sort only if all of them are numbers, as anything else is
neither less nor greater. All scores are numbers (`isNaN_scoreOf`), so the sort puts the best
candidates first and keeps the order of those that score the same (`stablySorted_mergeSort`). The
limit then cuts off the end, and with it no candidate better than one that is left.
-/

namespace Pseudocode.Suggestion

open Text (Run Earlier)

/-! ## Candidates -/

/-- A part stands somewhere in the whole, one character behind the other. -/
theorem occursIn_iff {part whole : List Char} : occursIn part whole = true ↔ part <:+: whole := by
  induction whole with
  | nil => rw [occursIn, List.isEmpty_iff, List.infix_nil]
  | cons c rest ih =>
      rw [occursIn, Bool.or_eq_true, ih, List.isPrefixOf_iff_prefix, List.infix_cons_iff]

/-- A word of the source is put in place as it is. -/
def ofWord (word : List Char) : Candidate := ⟨String.ofList word, String.ofList word⟩

/-- The word is not offered anyway, and is not part of what is being typed. -/
def isNew (query : String) (word : List Char) : Bool :=
  !standing.any (fun c => c.key == String.ofList word) && !occursIn
    (word.map Char.toLower) query.toList

/-- What the test for a new word asks. -/
theorem isNew_iff {query : String} {word : List Char} : isNew query word = true ↔
    String.ofList word ∉ standing.map Candidate.key ∧
      ¬ word.map Char.toLower <:+: query.toList := by
  rw [isNew, Bool.and_eq_true, Bool.not_eq_true', Bool.not_eq_true', ← Bool.not_eq_true,
    ← Bool.not_eq_true, occursIn_iff, List.any_eq_true, List.mem_map]
  simp only [beq_iff_eq]

/-- A new word is added, unless it has been taken already. -/
theorem addWord_eq (query : String) (taken : List (List Char)) (word : List Char) :
    addWord query (standing ++ taken.map ofWord) word =
      standing ++ (if isNew query word && !taken.contains word then taken ++ [word]
        else taken).map ofWord := by
  have htaken : (taken.map ofWord).any (fun c => c.key == String.ofList word) =
      taken.contains word := by
    rw [Bool.eq_iff_iff, List.any_map, List.any_eq_true, List.contains_iff_mem]
    constructor
    · rintro ⟨other, hmem, hkey⟩
      rwa [← String.ofList_injective (eq_of_beq hkey)]
    · intro hmem
      exact ⟨word, hmem, BEq.rfl⟩
  rw [addWord, List.any_append, htaken, isNew, Bool.and_right_comm, ← Bool.not_or, ← Bool.not_or]
  cases (standing.any (fun c => c.key == String.ofList word) || taken.contains word)
      || occursIn (word.map Char.toLower) query.toList with
  | false =>
      rw [Bool.not_false, if_pos rfl, if_neg Bool.false_ne_true, List.map_append,
        List.append_assoc]
      rfl
  | true => rw [Bool.not_true, if_pos rfl, if_neg Bool.false_ne_true]

/-- Words are taken when they come first. -/
theorem foldl_addWord (query : String) (taken words : List (List Char)) :
    words.foldl (addWord query) (standing ++ taken.map ofWord) =
      standing
      ++
        (taken
          ++ (words.filter fun word => isNew query word && !taken.contains word).eraseDups).map
            ofWord := by
  induction words generalizing taken with
  | nil => rw [List.foldl_nil, List.filter_nil, List.eraseDups_nil, List.append_nil]
  | cons word words ih =>
      rw [List.foldl_cons, addWord_eq, ih, List.filter_cons]
      split
      · rw [List.eraseDups_cons, List.filter_filter, List.append_assoc, List.singleton_append]
        -- a word that is not taken yet and is not this one is not among the words taken now
        have hsame : (fun w => isNew query w && !(taken ++ [word]).contains w) =
            fun w => (!w == word) && (isNew query w && !taken.contains w) := by
          funext w
          rw [List.contains_append, List.contains_cons, List.contains_nil, Bool.or_false,
            Bool.not_or, ← Bool.and_assoc, Bool.and_comm]
        rw [hsame]
      · rfl

/-- The candidates are the standing ones and behind them the new words of the source, each where it
first stands. -/
theorem candidates_eq (source query : String) : candidates source query =
    standing ++ ((Text.words source.toList).filter (isNew query)).eraseDups.map ofWord := by
  have hnew : (fun word => isNew query word && !([] : List (List Char)).contains word) =
      isNew query := by
    funext word
    rw [List.contains_nil, Bool.not_false, Bool.and_true]
  have hfold := foldl_addWord query [] (Text.words source.toList)
  rwa [hnew, List.map_nil, List.append_nil, List.nil_append] at hfold

/-- Without repetitions, entries are in the order in which each comes first. -/
theorem pairwise_eraseDups (l : List (List Char)) (p : List Char → Bool) :
    (l.filter p).eraseDups.Pairwise fun a b =>
    ∃ i : Nat, l[i]? = some a ∧ ∀ j : Nat, l[j]? = some b → i < j := by
  induction l generalizing p with
  | nil => exact List.Pairwise.nil
  | cons x l ih =>
      have hbehind : ∀ q : List Char → Bool, (∀ b, q b = true → b ≠ x) →
          (l.filter q).eraseDups.Pairwise fun a b =>
          ∃ i : Nat, (x :: l)[i]? = some a ∧ ∀ j : Nat, (x :: l)[j]? = some b → i < j := by
        intro q hq
        refine (ih q).imp_of_mem ?_
        rintro a b - hb ⟨i, hi, hfirst⟩
        refine ⟨i + 1, hi, fun j hj => ?_⟩
        cases j with
        | zero =>
            exact absurd (Option.some.inj hj).symm
              (hq b (List.mem_filter.mp (List.mem_eraseDups.mp hb)).2)
        | succ j => exact Nat.succ_lt_succ (hfirst j hj)
      rw [List.filter_cons]
      split
      · rw [List.eraseDups_cons, List.filter_filter]
        have hother : ∀ b, ((!b == x) && p b) = true → b ≠ x := by
          intro b hb
          simpa using (Bool.and_eq_true_iff.mp hb).1
        refine List.pairwise_cons.mpr ⟨fun b hb => ⟨0, rfl, fun j hj => ?_⟩, hbehind _ hother⟩
        cases j with
        | zero =>
            exact absurd (Option.some.inj hj).symm
              (hother b (List.mem_filter.mp (List.mem_eraseDups.mp hb)).2)
        | succ j => exact Nat.succ_pos j
      · rename_i hx
        refine hbehind p fun b hb heq => hx ?_
        rw [← heq, hb]

/-- The words of a source that are offered for a query, as they come in the source. -/
structure Offered (source query : String) (words : List (List Char)) : Prop where
  mem_iff : ∀ word, word ∈ words ↔ (∃ before after, Run source.toList before word after)
    ∧ String.ofList word ∉ standing.map Candidate.key ∧ ¬ word.map Char.toLower <:+: query.toList
  inOrder : words.Pairwise (Earlier source.toList)

theorem offered_words (source query : String) :
    Offered source query ((Text.words source.toList).filter (isNew query)).eraseDups where
  mem_iff word := by rw [List.mem_eraseDups, List.mem_filter, Text.mem_words, isNew_iff]
  inOrder :=
    (pairwise_eraseDups _ _).imp fun ⟨_, hfirst, hsecond⟩ => Text.earlier_of_index hfirst hsecond

theorem Earlier.irrefl (cs word : List Char) : ¬ Earlier cs word word := by
  rintro ⟨before, after, hrun, hbefore⟩
  exact Nat.lt_irrefl _ (hbefore before after hrun)

/-- No two candidates have the same key. -/
theorem Offered.nodup_keys {source query : String} {words : List (List Char)}
    (h : Offered source query words) :
    ((standing ++ words.map ofWord).map Candidate.key).Nodup := by
  rw [List.map_append, List.map_map]
  refine List.nodup_append.mpr ⟨by decide, ?_, ?_⟩
  · refine List.Pairwise.map _ ?_ h.inOrder
    rintro v w hearlier heq
    obtain rfl : v = w := String.ofList_injective heq
    exact Earlier.irrefl _ _ hearlier
  · rintro key hstanding _ hword rfl
    obtain ⟨word, hmem, rfl⟩ := List.mem_map.mp hword
    exact ((h.mem_iff word).mp hmem).2.1 hstanding

/-! ## Sorting -/

/-- The second list is the first one with higher scores first, and what scores the same stands as
it did. -/
structure StablySorted (scored ranked : List Suggestion) : Prop where
  perm : ranked.Perm scored
  falling : ranked.Pairwise fun a b => b.score ≤ a.score
  ties : ∀ a ∈ scored, ranked.filter (fun b => b.score == a.score) =
    scored.filter fun b => b.score == a.score

/-- Scores compared by their places. -/
def ahead (a b : Suggestion) : Bool := decide (Number.place b.score ≤ Number.place a.score)

theorem ahead_trans (a b c : Suggestion) (hab : ahead a b = true) (hbc : ahead b c = true) :
    ahead a c = true :=
  decide_eq_true ((of_decide_eq_true hbc).trans (of_decide_eq_true hab))

/-- Places are in order, so of two scores one is ahead. -/
theorem ahead_total (a b : Suggestion) : (ahead a b || ahead b a) = true := by
  rw [Bool.or_eq_true]
  exact (le_total (Number.place b.score) (Number.place a.score)).imp decide_eq_true decide_eq_true

section

variable {scored : List Suggestion} (h : ∀ a ∈ scored, a.score.isNaN = false)

include h

/-- Among numbers, scores may be compared by their places. -/
theorem mergeSort_eq_ahead :
    scored.mergeSort (fun a b => b.score ≤ a.score) = scored.mergeSort ahead := by
  have hsame := @List.map_mergeSort _ _ (fun a b => decide (b.score ≤ a.score)) ahead id scored
    fun a ha b hb => decide_eq_decide.mpr (Number.le_iff_place (h b hb) (h a ha))
  rwa [List.map_id, List.map_id] at hsame

/-- Among numbers, sorting by score keeps the order of ties. -/
theorem stablySorted_mergeSort :
    StablySorted scored (scored.mergeSort fun a b => b.score ≤ a.score) := by
  have hperm : (scored.mergeSort ahead).Perm scored := List.mergeSort_perm scored ahead
  rw [mergeSort_eq_ahead h]
  refine ⟨hperm, ?_, fun a ha => ?_⟩
  · refine (List.pairwise_mergeSort ahead_trans ahead_total scored).imp_of_mem
      fun {b c} hb hc hahead => ?_
    exact (Number.le_iff_place (h c (hperm.mem_iff.mp hc)) (h b (hperm.mem_iff.mp hb))).mpr
      (of_decide_eq_true hahead)
  · -- the ties are in any order sorted, so sorting leaves them as they are
    have hplace : ∀ b ∈ scored.filter (fun b => b.score == a.score),
        Number.place b.score = Number.place a.score := by
      intro b hb
      obtain ⟨hb, hscore⟩ := List.mem_filter.mp hb
      exact (Number.beq_iff_place (h b hb) (h a ha)).mp hscore
    have hpairwise : (scored.filter fun b => b.score == a.score).Pairwise
        fun b c => ahead b c = true := by
      refine List.pairwise_of_forall_mem_list fun b hb c hc => decide_eq_true ?_
      rw [hplace b hb, hplace c hc]
    have hsublist :=
      (List.sublist_mergeSort ahead_trans ahead_total hpairwise List.filter_sublist).filter
      fun b => b.score == a.score
    rw [List.filter_filter] at hsublist
    simp only [Bool.and_self] at hsublist
    exact (hsublist.eq_of_length (hperm.filter _).length_eq.symm).symm

end

/-- The first of the best candidates stays the first. -/
theorem StablySorted.head?_eq {scored ranked front back : List Suggestion} {a : Suggestion}
    (h : StablySorted scored ranked) (hnumber : ∀ b ∈ scored, b.score.isNaN = false)
    (hscored : scored = front ++ a :: back) (hfront : ∀ b ∈ front, b.score < a.score)
    (hback : ∀ b ∈ back, b.score ≤ a.score) : ranked.head? = some a := by
  subst hscored
  have ha : a ∈ front ++ a :: back := List.mem_append_right _ List.mem_cons_self
  have hlower : ∀ b ∈ front, Number.place b.score < Number.place a.score := fun b hb =>
    (Number.lt_iff_place (hnumber b (List.mem_append_left _ hb)) (hnumber a ha)).mp (hfront b hb)
  have hmax : ∀ b ∈ front ++ a :: back, Number.place b.score ≤ Number.place a.score := by
    intro b hb
    rcases List.mem_append.mp hb with hb' | hb'
    · exact (hlower b hb').le
    · rcases List.mem_cons.mp hb' with rfl | hb'
      · exact le_refl _
      · exact (Number.le_iff_place (hnumber b hb) (hnumber a ha)).mp (hback b hb')
  have hnone : front.filter (fun b => b.score == a.score) = [] := by
    refine List.filter_eq_nil_iff.mpr fun b hb hsame => (hlower b hb).ne ?_
    exact (Number.beq_iff_place (hnumber b (List.mem_append_left _ hb)) (hnumber a ha)).mp hsame
  -- what comes first scores as much as `a` does, and `a` is the first that does
  obtain ⟨b, rest, rfl⟩ := List.exists_cons_of_ne_nil (List.ne_nil_of_mem (h.perm.mem_iff.mpr ha))
  have hb := h.perm.mem_iff.mp (List.mem_cons_self (a := b))
  have hplace : Number.place a.score ≤ Number.place b.score := by
    rcases List.mem_cons.mp (h.perm.mem_iff.mpr ha) with rfl | hrest
    · exact le_refl _
    · have hle := (List.pairwise_cons.mp h.falling).1 a hrest
      exact (Number.le_iff_place (hnumber a ha) (hnumber b hb)).mp hle
  have hsame : (b.score == a.score) = true :=
    (Number.beq_iff_place (hnumber b hb) (hnumber a ha)).mpr (le_antisymm (hmax b hb) hplace)
  have hself : (a.score == a.score) = true :=
    (Number.beq_iff_place (hnumber a ha) (hnumber a ha)).mpr rfl
  have hties := h.ties a ha
  rw [List.filter_append, hnone, List.nil_append, List.filter_cons, if_pos hsame, List.filter_cons,
    if_pos hself] at hties
  rw [List.head?_cons, (List.cons.inj hties).1]

/-- What is cut off is not better than what is left. -/
theorem StablySorted.not_lt {scored ranked : List Suggestion} (h : StablySorted scored ranked)
    (hnumber : ∀ a ∈ scored, a.score.isNaN = false) (limit : Nat) :
    ∀ a ∈ ranked.drop limit, ∀ b ∈ ranked.take limit, ¬ b.score < a.score := by
  intro a ha b hb
  have hfalling := h.falling
  rw [← List.take_append_drop limit ranked] at hfalling
  have hle := (List.pairwise_append.mp hfalling).2.2 b hb a ha
  have hanumber := hnumber a (h.perm.mem_iff.mp (List.mem_of_mem_drop ha))
  have hbnumber := hnumber b (h.perm.mem_iff.mp (List.mem_of_mem_take hb))
  rw [Number.lt_iff_place hbnumber hanumber]
  exact ((Number.le_iff_place hanumber hbnumber).mp hle).not_gt

/-! ## Scores are numbers -/

/-- The score of words that differ is a number, whatever rounding does to it. -/
theorem Likeness.isNaN_score_near {distance longest : Nat} (starts : Bool) (hpos : 0 < distance)
    (hle : distance ≤ longest) (hlongest : longest < 2 ^ 64) :
    (near distance longest starts).score.isNaN = false := by
  obtain ⟨m, e, hm, hdistance⟩ :=
    Number.unpack_ofNat (Nat.ne_of_gt hpos) (Nat.lt_of_le_of_lt hle hlongest)
  obtain ⟨n, f, hn, hlongest⟩ :=
    Number.unpack_ofNat (Nat.ne_of_gt (Nat.lt_of_lt_of_le hpos hle)) hlongest
  have hsimilarity :=
    Number.isNaN_sub (by decide : (1.0 : Float).isFinite = true)
      (Number.isNaN_div hdistance hlongest)
  cases starts with
  | false => exact hsimilarity
  | true => exact Number.isNaN_add hsimilarity (by decide : (0.5 : Float).isFinite = true)

theorem length_normalize_le (word : String) : (normalize word).length ≤ word.length := by
  rw [normalize, String.length_ofList, List.length_map, ← String.length_toList]
  exact List.length_filter_le _ _

/-- **Every score is a number.** -/
theorem isNaN_scoreOf {candidate query : String} (hcandidate : candidate.length < 2 ^ 64)
    (hquery : query.length < 2 ^ 64) :
    (scoreOf candidate query).isNaN = false := by
  by_cases hsame : normalize candidate = normalize query
  · rw [scoreOf, likeness_same hsame]
    decide
  · by_cases hempty : normalize candidate = "" ∨ normalize query = ""
    · rw [scoreOf, likeness_empty hsame hempty]
      decide
    · obtain ⟨hne, hne'⟩ := not_or.mp hempty
      have hlongest : max (normalize candidate).length (normalize query).length < 2 ^ 64 :=
        Nat.max_lt.mpr ⟨Nat.lt_of_le_of_lt (length_normalize_le _) hcandidate,
          Nat.lt_of_le_of_lt (length_normalize_le _) hquery⟩
      rw [scoreOf, likeness_near hsame hne hne']
      exact Likeness.isNaN_score_near _ (editDistance_pos hsame) (editDistance_le_max _ _) hlongest

theorem length_query_le {source query : String} {caret : Nat}
    (h : query? source caret = some query) :
    query.length ≤ source.length := by
  rw [query?_eq] at h
  split at h
  · exact absurd h (by simp)
  · rw [← Option.some.inj h, String.length_ofList, List.length_map, ← String.length_toList]
    have hlength := congrArg List.length (Cut.toList_eq source caret)
    rw [List.length_append, List.length_append] at hlength
    omega

/-- The keys of candidates are no longer than counts may be. -/
theorem Offered.length_key_lt {source query : String} {words : List (List Char)}
    (h : Offered source query words) (hsource : source.length < 2 ^ 64) :
    ∀ c ∈ standing ++ words.map ofWord, c.key.length < 2 ^ 64 := by
  intro c hc
  rcases List.mem_append.mp hc with hc | hc
  · have hshort : ∀ c ∈ standing, c.key.length < 2 ^ 64 := by decide
    exact hshort c hc
  · obtain ⟨word, hword, rfl⟩ := List.mem_map.mp hc
    obtain ⟨⟨before, after, hrun⟩, -⟩ := (h.mem_iff word).mp hword
    have hlength := congrArg List.length hrun.eq
    rw [List.length_append, List.length_append, String.length_toList] at hlength
    rw [ofWord, String.length_ofList]
    omega

/-! ## Suggestions -/

/-- A candidate with its score. -/
def withScore (query : String) (c : Candidate) : Suggestion :=
  ⟨c.key, c.display, scoreOf c.key query⟩

theorem score_withScore (query : String) (c : Candidate) :
    (withScore query c).score = scoreOf c.key query := by
  rw [withScore]

theorem map_key_withScore (query : String) (cs : List Candidate) :
    (cs.map (withScore query)).map Suggestion.key = cs.map Candidate.key := by
  rw [List.map_map]
  rfl

theorem Offered.isNaN_score {source query : String} {caret : Nat} {words : List (List Char)}
    (h : Offered source query words) (hquery : query? source caret = some query)
    (hsource : source.length < 2 ^ 64) :
    ∀ a ∈ (standing ++ words.map ofWord).map (withScore query), a.score.isNaN = false := by
  intro a ha
  obtain ⟨c, hc, rfl⟩ := List.mem_map.mp ha
  rw [score_withScore]
  exact isNaN_scoreOf (h.length_key_lt hsource c hc)
    (Nat.lt_of_le_of_lt (length_query_le hquery) hsource)

/-- **The best candidates are suggested, and no others.**

Without a word before the caret there is nothing to suggest. Otherwise the candidates are the
standing ones, and behind them the words of the source that are neither standing nor, in lower
case, part of what is being typed: each once, in the order in which they first stand in the source.
What is suggested are as many as the limit allows of these, sorted by score, and no two with the
same key.

Counts of characters become doubles to be divided. As long as the counts are words of 64 bits, each
score is a number, the sort puts higher scores first and keeps the order of ties, and nothing that
is left out scores higher than what is suggested. -/
theorem suggest_eq_best (source : String) (caret limit : Nat) :
    (query? source caret = none → suggest source caret limit = [])
      ∧ ∀ query, query? source caret = some query → ∃ words ranked, Offered source query words
        ∧ ranked.Perm ((standing ++ words.map ofWord).map (withScore query))
        ∧ suggest source caret limit = ranked.take limit
        ∧ ((suggest source caret limit).map Suggestion.key).Nodup
        ∧ (source.length < 2 ^ 64 →
          StablySorted ((standing ++ words.map ofWord).map (withScore query)) ranked
            ∧ (∀ a ∈ ranked, a.score.isNaN = false)
            ∧ ∀ a ∈ ranked.drop limit, ∀ b ∈ ranked.take limit, ¬ b.score < a.score) := by
  refine ⟨fun hnone => by rw [suggest, hnone], fun query hquery => ?_⟩
  have hoffered := offered_words source query
  have hcandidates := candidates_eq source query
  generalize ((Text.words source.toList).filter (isNew query)).eraseDups =
    words at hoffered hcandidates
  have hsuggest : suggest source caret limit =
      (((standing ++ words.map ofWord).map (withScore query)).mergeSort fun a b => b.score ≤
        a.score).take limit := by
    rw [suggest, hquery, ← hcandidates]
    rfl
  have hperm := List.mergeSort_perm ((standing ++ words.map ofWord).map (withScore query))
      fun a b => b.score ≤ a.score
  refine ⟨words, _, hoffered, hperm, hsuggest, ?_, fun hlength => ?_⟩
  · rw [hsuggest]
    have hnodup := hoffered.nodup_keys
    rw [← map_key_withScore query, ← (hperm.map Suggestion.key).nodup_iff] at hnodup
    exact hnodup.sublist ((List.take_sublist _ _).map _)
  · have hnumber := hoffered.isNaN_score hquery hlength
    have hsorted := stablySorted_mergeSort hnumber
    exact ⟨hsorted, fun a ha => hnumber a (hperm.mem_iff.mp ha), hsorted.not_lt hnumber limit⟩

/-- For `rep` the word `Repeat` is a candidate, and `rep` itself is none. The reserved word
`REPEAT` scores as much as the one of the source, and comes first. Behind a space there are no
suggestions. -/
theorem suggest_eq_best_repeat : suggest "Repeat " 7 2 = []
    ∧ ∃ (words : List (List Char)) (ranked : List Suggestion), "Repeat".toList ∈ words
    ∧ "rep".toList ∉ words
      ∧ suggest "Repeat rep" 10 2 = ranked.take 2
      ∧ (suggest "Repeat rep" 10 2).head? = some (withScore "rep" ⟨"REPEAT", "REPEAT"⟩)
      ∧ StablySorted ((standing ++ words.map ofWord).map (withScore "rep")) ranked
      ∧ ∀ a ∈ ranked.drop 2, ∀ b ∈ ranked.take 2, ¬ b.score < a.score := by
  have hquery : query? "Repeat rep" 10 = some "rep" := by decide
  obtain ⟨-, hbest⟩ := suggest_eq_best "Repeat rep" 10 2
  obtain ⟨words, ranked, hoffered, -, hsuggest, -, hsorted⟩ := hbest "rep" hquery
  obtain ⟨hsorted, -, hlimit⟩ := hsorted (by decide)
  -- `REPEAT` is the twelfth of the standing candidates
  have hscored : (standing ++ words.map ofWord).map (withScore "rep") =
      (standing.take 11).map (withScore "rep") ++ withScore "rep" ⟨"REPEAT", "REPEAT"⟩ ::
        (standing.drop 12 ++ words.map ofWord).map (withScore "rep") := rfl
  have hfront : ∀ b ∈ (standing.take 11).map (withScore "rep"),
      b.score < (withScore "rep" ⟨"REPEAT", "REPEAT"⟩).score := by decide +kernel
  have hbehind : ∀ b ∈ (standing.drop 12).map (withScore "rep"),
      b.score ≤ (withScore "rep" ⟨"REPEAT", "REPEAT"⟩).score := by decide +kernel
  have hword : ∀ word ∈ words, word = "Repeat".toList := by
    intro word hmem
    obtain ⟨hrun, -, hnew⟩ := (hoffered.mem_iff word).mp hmem
    have hwords : Text.words "Repeat rep".toList = ["Repeat".toList, "rep".toList] := by decide
    rw [← Text.mem_words, hwords, List.mem_cons, List.mem_singleton] at hrun
    refine hrun.resolve_right fun hrep => hnew ?_
    rw [hrep]
    decide
  have hback : ∀ b ∈ (standing.drop 12 ++ words.map ofWord).map (withScore "rep"),
      b.score ≤ (withScore "rep" ⟨"REPEAT", "REPEAT"⟩).score := by
    intro b hb
    rw [List.map_append, List.mem_append] at hb
    rcases hb with hb | hb
    · exact hbehind b hb
    · obtain ⟨c, hc, rfl⟩ := List.mem_map.mp hb
      obtain ⟨word, hmem, rfl⟩ := List.mem_map.mp hc
      rw [hword word hmem]
      decide +kernel
  have hhead := hsorted.head?_eq (hoffered.isNaN_score hquery (by decide)) hscored hfront hback
  refine ⟨(suggest_eq_best "Repeat " 7 2).1 (by decide), words, ranked, ?_, ?_, hsuggest, ?_,
    hsorted, hlimit⟩
  · refine (hoffered.mem_iff _).mpr ⟨⟨[], " rep".toList, ?_⟩, by decide, by decide⟩
    refine ⟨rfl, by decide, List.all_eq_true.mp (by decide),
      fun c hc => absurd hc (by simp), fun c hc => ?_⟩
    obtain rfl : ' ' = c := Option.some.inj hc
    decide
  · intro hmem
    exact ((hoffered.mem_iff _).mp hmem).2.2 (by decide)
  · rw [hsuggest, List.head?_take, if_neg (by decide), hhead]

end Pseudocode.Suggestion
