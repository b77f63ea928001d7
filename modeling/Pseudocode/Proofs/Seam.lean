import Pseudocode.Proofs.Moved
import Pseudocode.Proofs.Printing
import Pseudocode.Proofs.Session

/-!
# A program in pieces

Two sources that can be read on their own can be put together with a newline between them. What is
read is the first program and behind it the second one, moved (`parseSource_pieces`).

For the lexer the reason is that no token but a text in quotes goes on over a newline, and a text
that is closed in the first source is closed (`LongestMatch.join`). For the parser newlines are
nothing, so the reason has to be another one: where a program could end, only the beginning of a
statement can follow, and no statement begins with what could continue an expression. The grammar
says so already, since it gives one program at most to each list of tokens; there it is enough that
programs can be put one behind the other.

Running the whole is running one program after the other, except that the second one is moved.
-/

namespace Pseudocode

open EvalM (after answer)
open Grammar
open Text (isBlank byteLength byteLength_append byteLength_cons)

/-! ## The lexer at a newline -/

namespace Lexer

/-- A newline behind a text, and whatever is behind that, makes no longer text. -/
theorem Longest.extend {P : List Char → Prop} {text rest : List Char} (h : Longest P text rest)
    (hclean : ∀ other, P other → '\n' ∉ other) (more : List Char) :
    Longest P text (rest ++ '\n' :: more) where
  mem := h.mem
  longest other hother hP := by
    rw [← List.append_assoc] at hother
    exact h.longest other (prefix_of_not_mem hother (hclean other hP)) hP

/-- A token that is taken is taken before a newline and anything behind it. -/
theorem Takes.extend {kind : Kind} {text rest : List Char} (h : Takes kind text rest)
    (more : List Char) :
    Takes kind text (rest ++ '\n' :: more) := by
  cases h with
  | word hstart hlongest hkind =>
      exact .word hstart (hlongest.extend (fun _ => blank_not_mem_word (by decide)) more) hkind
  | number hdigit hlongest =>
      exact .number hdigit (hlongest.extend (fun _ => blank_not_mem_number (by decide)) more)
  | text hinner => exact .text hinner
  | symbol hstarts hlongest hmem hne =>
      exact .symbol hstarts (hlongest.extend (fun _ => blank_not_mem_symbol (by decide)) more) hmem
        hne
  | @comment line _ hlongest hline hrest =>
      have hlonger := hlongest.extend (fun _ => blank_not_mem_symbol (by decide)) more
      rw [List.append_assoc] at hlonger
      refine .comment hlonger hline ?_
      -- the comment ended at a newline or at the end of the source, and ends at a newline now
      cases rest with
      | nil => exact fun c hc => (Option.some.inj hc).symm
      | cons d rest => exact fun c hc => hrest c hc

theorem eq_ok_of_map {f : List Token → List Token} {result : Except Error (List Token)}
    {ts : List Token} (h : result.map f = .ok ts) : ∃ us, result = .ok us ∧ ts = f us := by
  cases result with
  | ok us => exact ⟨us, rfl, (Except.ok.inj h).symm⟩
  | error e => exact nomatch h

/-- The newline that the lexer adds to a source is the newline in between, if another source
follows. -/
theorem LongestMatch.join {offset : Nat} {cs : List Char} {result : Except Error (List Token)}
    (h : LongestMatch offset cs result) : ∀ {ts : List Token}, result = .ok ts →
      ∃ front, ts = front ++ [⟨"", .newline, offset + byteLength cs⟩]
      ++ [Token.endAt (offset + byteLength cs)]
        ∧ ∀ {more : List Char} {us : List Token},
        LongestMatch (offset + byteLength cs + 1) more (.ok us) →
          LongestMatch offset (cs ++ '\n' :: more)
            (.ok (front ++ ⟨"\n", .newline, offset + byteLength cs + 1⟩ :: us)) := by
  induction h with
  | done =>
      intro ts hts
      exact ⟨[], (Except.ok.inj hts).symm, fun hmore => .newline hmore⟩
  | @skip offset c rest result hblank hne _ ih =>
      intro ts hts
      obtain ⟨front, hfront, hjoin⟩ := ih hts
      have hoffset : offset + byteLength (c :: rest) = offset + c.utf8Size + byteLength rest :=
        (Nat.add_assoc ..).symm
      rw [hoffset]
      exact ⟨front, hfront, fun hmore => .skip hblank hne (hjoin hmore)⟩
  | @newline offset rest result _ ih =>
      intro ts hts
      obtain ⟨us, hus, rfl⟩ := eq_ok_of_map hts
      obtain ⟨front, rfl, hjoin⟩ := ih hus
      have hoffset : offset + byteLength ('\n' :: rest) = offset + 1 + byteLength rest :=
        (Nat.add_assoc ..).symm
      rw [hoffset]
      exact ⟨⟨"\n", .newline, offset + 1⟩ :: front, rfl, fun hmore => .newline (hjoin hmore)⟩
  | @take offset kind text rest result htakes _ ih =>
      intro ts hts
      obtain ⟨us, hus, rfl⟩ := eq_ok_of_map hts
      obtain ⟨front, rfl, hjoin⟩ := ih hus
      rw [byteLength_append, ← Nat.add_assoc]
      refine ⟨⟨String.ofList text, kind, offset + byteLength text⟩ :: front, rfl,
        fun {more us} hmore => ?_⟩
      rw [List.append_assoc]
      exact .take (htakes.extend more) (hjoin hmore)
  | unterminated _ => exact fun hts => nomatch hts
  | unrecognized _ _ => exact fun hts => nomatch hts

/-- A text that starts further on has the same tokens, further on. -/
theorem LongestMatch.moved {offset : Nat} {cs : List Char} {result : Except Error (List Token)}
    (n : Nat) (h : LongestMatch offset cs result) :
    ∀ {ts : List Token}, result = .ok ts →
      LongestMatch (n + offset) cs (.ok (ts.map (Token.moved n))) := by
  induction h with
  | done =>
      intro ts hts
      rw [← Except.ok.inj hts]
      exact .done
  | skip hblank hne _ ih =>
      intro ts hts
      exact .skip hblank hne (Nat.add_assoc .. ▸ ih hts)
  | newline _ ih =>
      intro ts hts
      obtain ⟨us, hus, rfl⟩ := eq_ok_of_map hts
      exact .newline (Nat.add_assoc .. ▸ ih hus)
  | @take offset kind text rest result htakes _ ih =>
      intro ts hts
      obtain ⟨us, hus, rfl⟩ := eq_ok_of_map hts
      have htake := LongestMatch.take htakes (Nat.add_assoc n offset (byteLength text) ▸ ih hus)
      rw [Nat.add_assoc] at htake
      exact htake
  | unterminated _ => exact fun hts => nomatch hts
  | unrecognized _ _ => exact fun hts => nomatch hts

end Lexer

/-! ## Programs one behind the other -/

theorem Block.depth_append (block block' : Block) :
    Block.depth (block ++ block') = max (Block.depth block) (Block.depth block') := by
  induction block with
  | nil => rw [List.nil_append, Block.depth, Nat.zero_max]
  | cons s rest ih => rw [List.cons_append, Block.depth, Block.depth, ih, Nat.max_assoc]

/-- Programs one behind the other are a program. -/
theorem Grammar.Statements.append {ws vs : List Token} {block block' : Block}
    (h : Statements ws block) (h' : Statements vs block') :
    Statements (ws ++ vs) (block ++ block') := by
  induction block generalizing ws with
  | nil =>
      cases h
      exact h'
  | cons s rest ih =>
      cases h with
      | cons hfirst hrest =>
          rw [List.append_assoc]
          exact .cons hfirst (ih hrest)

/-- Tokens that keep their kinds keep a program a program. -/
theorem Grammar.Statements.mapTokens {f : Token → Token} (hf : KeepsKind f) {ws : List Token}
    {block : Block} (h : Statements ws block) :
    Statements (ws.map f) (Block.mapTokens f block) := by
  obtain ⟨block', h', hsame⟩ := h.replace hf (g := id) (fun _ => rfl) (List.map_id _).symm
  rw [Block.mapTokens_id] at hsame
  exact hsame ▸ h'

/-- A program that completes is followed by whatever stands behind it. -/
theorem executeProgram_append {fuel : Nat} {front : Block} {m mid : Machine}
    (h : executeProgram fuel front m = .ok none mid) (rest : Block) :
    executeProgram fuel (front ++ rest) m = executeProgram fuel rest mid := by
  induction front generalizing m with
  | nil =>
      injection h with _ hm
      rw [List.nil_append, hm]
  | cons s front ih =>
      rw [executeProgram_cons] at h
      rw [List.cons_append, executeProgram_cons]
      cases hs : execute (.standard fuel) s Machine.global m with
      | error halt m' => rw [hs] at h; exact nomatch h
      | ok flow m' =>
          rw [hs] at h
          cases flow with
          | next => exact ih h
          | returned value => exact nomatch h

/-! ## What differs behind the seam -/

/-- The procedure is bound to a name in some scope. -/
def Machine.Stores (m : Machine) (p : Procedure) : Prop :=
  ∃ id name, m.scopes.getLocal? id name = some (.procedure p)

section

variable (n : Nat) (mid : Machine) (block : Block)

/-- An error of `block`, which runs on `mid`, and the error when `block` is moved. It is the same
error, moved, or the error of a procedure that `mid` stores, which stays where it is. -/
inductive Error.Joined : Error → Error → Prop where
  | stays {p : Procedure} {e : Error} : mid.Stores p → Block.Raises p.body (.error e) → Joined e e
  | moves {e : Error} : Block.Raises block (.error e) → Joined e (e.moved n)

/-- What `block`, which runs on `mid`, binds a name to, and what it binds it to when it is moved.
Only the procedures that it declares are moved with it, not those that `mid` stores nor any that
are declared inside of them. -/
inductive Binding.Joined : Binding → Binding → Prop where
  | value (v : Value) : Joined (.value v) (.value v)
  | builtin (b : Builtin) : Joined (.builtin b) (.builtin b)
  | stays {p : Procedure} : mid.Stores p → Joined (.procedure p) (.procedure p)
  | inside {p q : Procedure} : mid.Stores q → p.DeclaredIn q.body →
      Joined (.procedure p) (.procedure p)
  | moves {p : Procedure} : p.DeclaredIn block →
      Joined (.procedure p) (.procedure (p.mapTokens (Token.moved n)))

/-- What is wanted of a program and the same program moved, which both run on `mid`. -/
def Tolerance.joined : Tolerance :=
  .anyValue (Error.Joined n mid block)
    fun p p' => Binding.Joined n mid block (.procedure p) (.procedure p')

end

variable {n : Nat} {mid : Machine} {block : Block}

theorem Binding.Like.joined {b b' : Binding}
    (h : Binding.Like (Tolerance.joined n mid block) b b') :
    Binding.Joined n mid block b b' := by
  cases h with
  | value _ => exact .value _
  | procedure _ hprocedures _ => exact hprocedures
  | builtin b => exact .builtin b

/-- What a machine stores is alike to itself. -/
theorem Machine.linked_joined (n : Nat) (mid : Machine) (block : Block) :
    Machine.Linked (Binding.Like (Tolerance.joined n mid block)) mid mid := by
  refine ⟨Scopes.Linked.refl fun id name b hb => ?_, rfl, rfl⟩
  cases b with
  | value v => exact .value trivial
  | builtin b => exact .builtin b
  | procedure p =>
      have hp : mid.Stores p := ⟨id, name, hb⟩
      refine .procedure ⟨rfl, rfl⟩ (.stays hp) (Block.like_self ?_ ?_ fun _ _ _ _ => trivial)
      · exact fun e he => .stays hp he
      · exact fun q hq => .inside hp hq

/-- A program moved runs as the program does on the same machine, up to what is moved. -/
theorem executeProgram_moved (hplaced : Stmt.NodesOf Token.Placed (Block.parts block))
    (n fuel : Nat) (mid : Machine) :
    Machine.Linked (Binding.Joined n mid block) ((executeProgram fuel block).after mid)
        ((executeProgram fuel (Block.mapTokens (Token.moved n) block)).after mid)
      ∧ Outcome.Agree (Error.Joined n mid block) ((executeProgram fuel block).answer mid)
        ((executeProgram fuel (Block.mapTokens (Token.moved n) block)).answer mid) := by
  have hlike :
      Block.Like (Tolerance.joined n mid block) block (Block.mapTokens (Token.moved n) block) :=
    Block.like_moved hplaced (fun _ => .moves) (fun _ => .moves) fun _ => trivial
  obtain ⟨⟨hscopes, hdepth, houtput⟩, hanswers, -⟩ :=
    executeProgram_like fuel hlike (Machine.linked_joined n mid block)
  exact ⟨⟨hscopes.mono fun _ _ => Binding.Like.joined, hdepth, houtput⟩, hanswers⟩

/-! ## Sources one behind the other -/

/-- The tokens of two sources with a newline between them. -/
theorem lex_join {s₁ s₂ : String} {body₁ body₂ : List Token} {last₁ last₂ : Token}
    (h₁ : lex s₁ = .ok (body₁ ++ [last₁])) (h₂ : lex s₂ = .ok (body₂ ++ [last₂])) :
    ∃ body, lex (s₁ ++ "\n" ++ s₂) = .ok (body ++ [last₂.moved (s₁.utf8ByteSize + 1)])
      ∧ significant body = significant body₁
      ++ (significant body₂).map (Token.moved (s₁.utf8ByteSize + 1)) := by
  obtain ⟨result₁, hmatch₁⟩ := Lexer.exists_longestMatch 0 s₁.toList
  obtain ⟨result₂, hmatch₂⟩ := Lexer.exists_longestMatch 0 s₂.toList
  obtain rfl : result₁ = .ok (body₁ ++ [last₁]) := (lex_eq_of_longestMatch hmatch₁).symm.trans h₁
  obtain rfl : result₂ = .ok (body₂ ++ [last₂]) := (lex_eq_of_longestMatch hmatch₂).symm.trans h₂
  obtain ⟨front, hfront, hjoin⟩ := hmatch₁.join rfl
  obtain ⟨rfl, -⟩ := List.append_inj' hfront rfl
  rw [Nat.zero_add, byteLength_toList] at hjoin ⊢
  have hmoved := hmatch₂.moved (s₁.utf8ByteSize + 1) rfl
  rw [Nat.add_zero, List.map_append, List.map_singleton] at hmoved
  refine ⟨front ++ ⟨"\n", .newline, s₁.utf8ByteSize + 1⟩ ::
    body₂.map (Token.moved (s₁.utf8ByteSize + 1)), ?_, ?_⟩
  · refine lex_eq_of_longestMatch ?_
    rw [String.toList_append, String.toList_append, List.append_assoc, List.append_assoc,
      List.cons_append]
    exact hjoin hmoved
  · rw [← significant_map (Token.keepsKind_moved _)]
    simp [significant, Kind.isInsignificant]

/-- What is read of two sources with a newline between them. -/
theorem parseSource_join {s₁ s₂ : String} {p₁ p₂ : Block} (h₁ : parseSource s₁ = .ok p₁)
    (h₂ : parseSource s₂ = .ok p₂) :
    parseSource (s₁ ++ "\n" ++ s₂) = .ok
      (p₁ ++ Block.mapTokens (Token.moved (s₁.utf8ByteSize + 1)) p₂) := by
  obtain ⟨body₁, hlex₁, -, hstatements₁, hdepth₁⟩ := statements_of_parseSource h₁
  obtain ⟨body₂, hlex₂, -, hstatements₂, hdepth₂⟩ := statements_of_parseSource h₂
  obtain ⟨body, hlex, hbody⟩ := lex_join hlex₁ hlex₂
  refine parseSource_of_grammar hlex rfl ?_ ?_
  · rw [hbody]
    exact hstatements₁.append (hstatements₂.mapTokens (Token.keepsKind_moved _))
  · rw [Block.depth_append, Block.depth_mapTokens]
    exact Nat.max_le.mpr ⟨hdepth₁, hdepth₂⟩

/--
**A program can be fed in pieces.**

Two sources that are programs are one program with a newline between them: the statements of the
first, and behind them those of the second with every token moved by the length of what is in
front. Whenever the first completes, the whole does what the second one does after it: it answers
the same and leaves the same output and the same bindings in the same scopes, up to where errors
and procedures of the second point.
-/
theorem parseSource_pieces {s₁ s₂ : String} {p₁ p₂ : Block} (h₁ : parseSource s₁ = .ok p₁)
    (h₂ : parseSource s₂ = .ok p₂) :
    ∃ whole, whole = p₁ ++ Block.mapTokens (Token.moved (s₁.utf8ByteSize + 1)) p₂
      ∧ parseSource (s₁ ++ "\n" ++ s₂) = .ok whole
      ∧ ∀ fuel m mid, executeProgram fuel p₁ m = .ok none mid →
          Machine.Linked (Binding.Joined (s₁.utf8ByteSize + 1) mid p₂)
            ((executeProgram fuel p₂).after mid) ((executeProgram fuel whole).after m)
          ∧ Outcome.Agree (Error.Joined (s₁.utf8ByteSize + 1) mid p₂)
            ((executeProgram fuel p₂).answer mid) ((executeProgram fuel whole).answer m) := by
  refine ⟨_, rfl, parseSource_join h₁ h₂, fun fuel m mid hfront => ?_⟩
  have hplaced : Stmt.NodesOf Token.Placed (Block.parts p₂) := by
    obtain ⟨body, -, hlies, hstatements, -⟩ := statements_of_parseSource h₂
    exact hstatements.nodes fun t ht => (hlies t ht).placed
  let back := Block.mapTokens (Token.moved (s₁.utf8ByteSize + 1)) p₂
  have hrest := executeProgram_append hfront back
  have hafter : (executeProgram fuel (p₁ ++ back)).after m =
      (executeProgram fuel back).after mid := by
    unfold after
    rw [hrest]
  have hanswer : (executeProgram fuel (p₁ ++ back)).answer m =
      (executeProgram fuel back).answer mid := by
    unfold answer
    rw [hrest]
  rw [hafter, hanswer]
  exact executeProgram_moved hplaced _ fuel mid

/-- An assignment with a comment behind it. -/
theorem parseSource_assignment_commented :
    parseSource "x←true//" =
      .ok [.assign ⟨"x", .identifier, 1⟩ (.literal ⟨"true", .truth, 8⟩)] := by
  have hcut : Lexer.lexFrom #[] 0 ['x', '←', 't', 'r', 'u', 'e', '/', '/']
      = Lexer.lexFrom #[⟨"x", .identifier, 1⟩, ⟨"←", .assign, 4⟩, ⟨"true", .truth, 8⟩,
        ⟨"//", .comment, 10⟩] 10 [] := by
    calc Lexer.lexFrom #[] 0 ['x', '←', 't', 'r', 'u', 'e', '/', '/']
      _ = Lexer.lexFrom #[⟨"x", .identifier, 1⟩] 1 ['←', 't', 'r', 'u', 'e', '/', '/'] := by
          rw [Lexer.lexFrom.eq_2]; rfl
      _ = Lexer.lexFrom #[⟨"x", .identifier, 1⟩, ⟨"←", .assign, 4⟩] 4
        ['t', 'r', 'u', 'e', '/', '/'] := by
          rw [Lexer.lexFrom.eq_2]; rfl
      _ = Lexer.lexFrom #[⟨"x", .identifier, 1⟩, ⟨"←", .assign, 4⟩, ⟨"true", .truth, 8⟩] 8
        ['/', '/'] := by
          rw [Lexer.lexFrom.eq_2]; rfl
      _ = Lexer.lexFrom #[⟨"x", .identifier, 1⟩, ⟨"←", .assign, 4⟩, ⟨"true", .truth, 8⟩,
        ⟨"//", .comment, 10⟩] 10 [] := by
          rw [Lexer.lexFrom.eq_2]; rfl
  have hlex : lex "x←true//" =
      .ok ([⟨"x", .identifier, 1⟩, ⟨"←", .assign, 4⟩, ⟨"true", .truth, 8⟩, ⟨"//", .comment, 10⟩,
        ⟨"", .newline, 10⟩] ++ [Token.endAt 10]) := by
    rw [lex, show "x←true//".toList = ['x', '←', 't', 'r', 'u', 'e', '/', '/'] from rfl,
      hcut, Lexer.lexFrom]
    rfl
  exact parseSource_of_grammar hlex rfl
    (.cons (.assign rfl rfl (.primary (.literal (.inr (.inr rfl))))) .nil) (by decide)

/-- A name alone. -/
theorem parseSource_name : parseSource "y" = .ok [.expression (.name ⟨"y", .identifier, 1⟩)] := by
  have hlex : lex "y" = .ok ([⟨"y", .identifier, 1⟩, ⟨"", .newline, 1⟩] ++ [Token.endAt 1]) := by
    rw [lex, show "y".toList = ['y'] from rfl, Lexer.lexFrom.eq_2]
    show (Lexer.lexFrom #[⟨"y", .identifier, 1⟩] 1 []).map Array.toList = _
    rw [Lexer.lexFrom]
    rfl
  exact parseSource_of_grammar hlex rfl
    (.cons (.expression rfl (.primary (.name rfl))) .nil) (by decide)

/-- The first source ends in a comment, which the newline ends. The name in the second is not
known, and the error points behind the comment. -/
theorem parseSource_pieces_commented :
    parseSource "x←true//" = .ok [.assign ⟨"x", .identifier, 1⟩ (.literal ⟨"true", .truth, 8⟩)]
      ∧ parseSource "y" = .ok [.expression (.name ⟨"y", .identifier, 1⟩)]
      ∧ ∃ whole mid, parseSource ("x←true//" ++ "\n" ++ "y") = .ok whole
        ∧ executeProgram 0 [.assign ⟨"x", .identifier, 1⟩ (.literal ⟨"true", .truth, 8⟩)]
          Machine.fresh = .ok none mid
        ∧ Machine.Linked (Binding.Joined 11 mid [.expression (.name ⟨"y", .identifier, 1⟩)])
          ((executeProgram 0 [.expression (.name ⟨"y", .identifier, 1⟩)]).after mid)
          ((executeProgram 0 whole).after Machine.fresh)
        ∧ (executeProgram 0 [.expression (.name ⟨"y", .identifier, 1⟩)]).answer mid
          = .error (.error (.undefinedName ⟨"y", .identifier, 1⟩))
        ∧ (executeProgram 0 whole).answer Machine.fresh =
          .error (.error (.undefinedName ⟨"y", .identifier, 12⟩)) := by
  obtain ⟨whole, rfl, hwhole, hruns⟩ :=
    parseSource_pieces parseSource_assignment_commented parseSource_name
  rw [show "x←true//".utf8ByteSize + 1 = 11 from rfl] at hwhole hruns
  obtain ⟨hlinked, -⟩ := hruns 0 Machine.fresh _ rfl
  exact ⟨parseSource_assignment_commented, parseSource_name, _, _, hwhole, rfl, hlinked, rfl, rfl⟩

end Pseudocode
