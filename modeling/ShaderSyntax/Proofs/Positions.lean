import Mathlib.Data.Nat.Find
import ShaderSyntax.Proofs.Partition
import ShaderSyntax.Proofs.Walking

/-!
# Lines and columns

The scanner counts lines and columns as it goes. What it has counted at an offset is what the text
before that offset says: a line more than there are line feeds, and a column more than there are
bytes since the last of them. Diagnostics take their place from a token, and a walk through includes
counts the line feeds again, so they all agree.
-/
namespace ShaderSyntax

/-- The offset just after the last line feed before the given one; zero if there is none. -/
def Text.lineStart (text : Text) (offset : Nat) : Nat :=
  Nat.findGreatest (fun start => text[start - 1]? = some Byte.lineFeed) offset

namespace Position

/-- The line and the column are those of the offset in the text. -/
structure Tells (text : Text) (p : Position) : Prop where
  line : p.line = 1 + (text.take p.offset).count Byte.lineFeed
  column : p.column = p.offset - text.lineStart p.offset + 1

variable {text t : Text} {p : Position}

theorem tells_start (text : Text) : start.Tells text :=
  ⟨rfl, rfl⟩

/-- One byte further. -/
theorem Tells.next {b : UInt8} (h : p.Tells text) (hb : text[p.offset]? = some b) :
    (p.next b).Tells text := by
  have htake : text.take (p.offset + 1) = text.take p.offset ++ [b] := by
    rw [List.take_add_one, hb]
    rfl
  have hle : text.lineStart p.offset ≤ p.offset := Nat.findGreatest_le p.offset
  have hstart : text.lineStart (p.offset + 1) =
      if text[p.offset]? = some Byte.lineFeed then p.offset + 1 else text.lineStart p.offset :=
    Nat.findGreatest_succ p.offset
  have hline := h.line
  have hcolumn := h.column
  unfold Position.next
  by_cases hf : b = Byte.lineFeed
  · rw [if_pos hf]
    rw [hb, hf, if_pos rfl] at hstart
    constructor
    · simp only [htake, hf, List.count_append, List.count_singleton_self]
      omega
    · simp only [hstart]
      omega
  · rw [if_neg hf]
    rw [hb, if_neg (fun he => hf (Option.some.inj he))] at hstart
    constructor
    · simp only [htake, List.count_append, List.count_singleton, beq_iff_eq, hf, if_false]
      omega
    · simp only [hstart]
      omega

/-- As many bytes further as a text has that stands there. -/
theorem Tells.after (h : p.Tells text) (ht : t <+: text.drop p.offset) :
    (p.after t).Tells text := by
  induction t generalizing p with
  | nil => exact h
  | cons b t ih =>
    obtain ⟨more, hmore⟩ := ht
    have hb : text[p.offset]? = some b := by
      rw [← List.head?_drop, ← hmore]
      rfl
    have hoffset : (p.next b).offset = p.offset + 1 := offset_after p [b]
    apply ih (h.next hb)
    rw [hoffset, ← List.drop_drop, ← hmore]
    exact List.prefix_append t more

/-- Through the pieces of a gap, whose comments start on the way. -/
theorem Tells.gapWithin (count : Nat) (h : p.Tells text) :
    (p.after ((Trivia.gapWithin count (text.drop p.offset)).flatMap Trivia.text)).Tells text ∧
      ∀ c ∈ Comment.ofTrivia p (Trivia.gapWithin count (text.drop p.offset)),
        c.position.Tells text := by
  induction count generalizing p with
  | zero => exact ⟨h, by simp [Trivia.gapWithin, Comment.ofTrivia]⟩
  | succ count ih =>
    cases hf : Trivia.first? (text.drop p.offset) with
    | none =>
      simp only [Trivia.gapWithin, hf]
      exact ⟨h, by simp [Comment.ofTrivia]⟩
    | some piece =>
      obtain ⟨hafter, hcomments⟩ := ih (h.after (Trivia.first?_text hf).2)
      rw [offset_after, ← List.drop_drop] at hafter hcomments
      simp only [Trivia.gapWithin, hf, List.flatMap_cons, after_append]
      refine ⟨hafter, ?_⟩
      cases piece with
      | blank t => exact hcomments
      | comment t =>
        intro c hc
        rcases List.mem_cons.mp hc with rfl | hc
        · exact h
        · exact hcomments c hc

end Position

namespace Scanner

variable {text : Text} {s : Scanner}

/-- One token further. -/
theorem next_tells (hs : s.Within text) (h : s.position.Tells text) :
    s.next.1.position.Tells text ∧ (∀ c ∈ s.next.1.comments, c.position.Tells text) ∧
      s.next.2.position.Tells text := by
  obtain ⟨hsettled, hcomments⟩ := h.gapWithin s.rest.length
  rw [← hs] at hsettled hcomments
  have hposition : s.next.1.position.Tells text := by
    rw [next_position]
    exact hsettled
  refine ⟨hposition, ?_, ?_⟩
  · rw [comments_next]
    exact hcomments
  · obtain ⟨gap, hpos, -, hnext, -⟩ := s.next_spec
    have hafter : s.next.2.position = s.next.1.position.after s.next.1.text := by
      rw [hnext, hpos]
      rfl
    rw [hafter]
    exact hposition.after hs.placed

theorem tokensWithin_tells (count : Nat) (s : Scanner) (hs : s.Within text)
    (h : s.position.Tells text) :
    ∀ t ∈ (tokensWithin count s).1,
      t.position.Tells text ∧ ∀ c ∈ t.comments, c.position.Tells text := by
  induction count generalizing s with
  | zero => simp [tokensWithin]
  | succ count ih =>
    obtain ⟨htoken, hcomments, hafter⟩ := next_tells hs h
    intro t ht
    by_cases hl : s.next.1.lexeme? = none
    · rw [tokensWithin_succ_of_none hl] at ht
      rw [List.mem_singleton.mp ht]
      exact ⟨htoken, hcomments⟩
    · rw [tokensWithin_succ_of_some hl] at ht
      rcases List.mem_cons.mp ht with rfl | ht
      · exact ⟨htoken, hcomments⟩
      · exact ih s.next.2 hs.next hafter t ht

end Scanner

theorem tokenize_tells (text : Text) :
    ∀ t ∈ tokenize text, t.position.Tells text ∧ ∀ c ∈ t.comments, c.position.Tells text :=
  Scanner.tokensWithin_tells (text.length + 1) (.start text) rfl (Position.tells_start text)

/-- What holds of all tokens of a text, and of an end token at the start, holds of any token that a
source is asked for. -/
theorem Source.forall_token {text : Text} {index : Nat} {P : Token → Prop}
    (h : ∀ t ∈ tokenize text, P t) (hnone : P ⟨none, .start, []⟩) :
    P ((Source.ofText text).token index) := by
  unfold Source.token Source.ofText
  rw [List.getElem?_toArray]
  cases ht : (tokenize text)[index]? with
  | none => exact hnone
  | some t => exact h t (List.mem_of_getElem? ht)

/-- Every token that a source is asked for tells its place, also one that is not there. -/
theorem Source.token_tells (text : Text) (index : Nat) :
    ((Source.ofText text).token index).position.Tells text :=
  Source.forall_token (fun t ht => (tokenize_tells text t ht).1) (Position.tells_start text)

/-- The declarations of a document are placed one by one, each on the run of its own lexemes. -/
theorem Document.mem_zip_trees {levels : Nat} {text : Text} {d : Document}
    (h : Document.parse levels text = .ok d) {decl : Decl} {tree : Tree}
    (hm : (decl, tree) ∈ d.decls.zip d.trees) :
    ∃ start run, Run text start decl.node.lexemes run ∧
      tree = decl.node.place (Source.ofText text).locate start := by
  obtain ⟨htrees, -, hrun⟩ := Document.trees_placed h
  rw [htrees] at hm
  generalize (0 : Nat) = start, written text = run, d.decls = decls at hm hrun
  induction decls generalizing start run with
  | nil => cases hm
  | cons first decls ih =>
    rw [List.map_cons, Item.lexemes_children_cons] at hrun
    obtain ⟨r₁, r₂, -, h₁, h₂⟩ := hrun.split
    rw [Node.length_lexemes] at h₂
    rcases List.mem_cons.mp hm with he | hm
    · cases he
      exact ⟨start, r₁, h₁, rfl⟩
    · exact ih _ _ hm h₂

/-- The dependency is an include of a file that can be read and parsed, with its path, and its line
is that of the hash it starts with. -/
def Dependency.AtHash (levels : Nat) (fs : FileSystem) (dep : Dependency) : Prop :=
  ∃ text d tree raw hash, fs.read dep.includer = .ok text ∧
    Document.parse levels text = .ok d ∧ tree ∈ d.trees ∧ tree.kind = .includeDeclaration ∧
    tree.children.map Tree.leafText? = [some raw] ∧ dep.path = unquote raw ∧
    hash ∈ tokenize text ∧ hash.kind = .punct .hash ∧ hash.span.start = tree.span.start ∧
    dep.line = hash.position.line

theorem Dependency.Written.atHash {levels : Nat} {fs : FileSystem} {dep : Dependency}
    (h : dep.Written levels fs) : dep.AtHash levels fs := by
  obtain ⟨text, d, hread, hparse, hmem⟩ := h
  have htext : d.source.text = text := by
    rw [(Document.account hparse .value).1]
    rfl
  obtain ⟨⟨decl, tree⟩, hzip, hinclude⟩ := List.mem_filterMap.mp hmem
  cases decl with
  | includes raw =>
    injection hinclude with hinclude
    obtain ⟨hpath, hline⟩ := Prod.mk.inj hinclude
    obtain ⟨start, run, hrun, rfl⟩ := Document.mem_zip_trees hparse hzip
    obtain ⟨hash, more, rfl, -⟩ := Run.tail hrun
    have hspan := Source.locate_run hrun rfl (List.getLast?_eq_some_getLast (by simp))
    have hstart : hash.span.start =
        ((Decl.includes raw).node.place (Source.ofText text).locate start).span.start := by
      rw [Node.span_place, ← Node.length_lexemes, hspan]
    have hkind : hash.lexeme? = some (.punct .hash) := (List.cons.inj hrun.lexemes).1
    have hwritten : hash ∈ tokenize text := by
      obtain ⟨before, after, hw, -⟩ := hrun.within
      have hin : hash ∈ written text := by simp [hw]
      exact (List.mem_filter.mp hin).1
    refine ⟨text, d, _, raw, hash, hread, hparse, (List.of_mem_zip hzip).2, rfl, rfl, hpath.symm,
      hwritten, ?_, hstart, ?_⟩
    · simp only [Token.kind, hkind, Lexeme.kind]
    · rw [← hline, htext, ← hstart, Text.lineNumberAt, Nat.add_comm]
      exact (tokenize_tells text hash hwritten).1.line.symm
  | _ => cases hinclude

/-- Tokens, comments and diagnostics tell the line and the column that their offset has in the text,
and every dependency tells the line of the hash of its include. -/
theorem positions_tell_text :
    (∀ text, ∀ t ∈ tokenize text,
      t.position.Tells text ∧ ∀ c ∈ t.comments, c.position.Tells text) ∧
    (∀ levels text d, Document.parse levels text = .ok d →
      ∀ e ∈ d.diagnostics, e.position.offset = e.span.start ∧ e.position.Tells text) ∧
    ∀ (r : Resolver) fs path deps, r.walk fs path = .ok deps →
      ∀ dep ∈ deps, dep.AtHash r.levels fs := by
  refine ⟨tokenize_tells, ?_, ?_⟩
  · intro levels text d hd e he
    rw [Document.diagnostics, (Document.account hd .value).1] at he
    obtain ⟨f, -, rfl⟩ := List.mem_map.mp he
    exact ⟨rfl, Source.token_tells text _⟩
  · intro r fs path deps hwalk dep hdep
    exact (Resolver.walk_written hwalk dep hdep).atHash

/-- An include after a line break in a comment, of a file with a problem after a line break in a
string. -/
theorem positions_tell_text_later_line :
    let main := Text.ofString "/* \n */ #include \"part\""
    let part := Text.ofString "#include \"a\nb\" int x = 1;"
    let fs : FileSystem := ⟨Text.ofString "/w", fun path =>
      if path = Text.ofString "/w/main" then .file main
      else if path = Text.ofString "/w/part" then .file part
      else .absent .noSuchFile⟩
    let comment : Comment := ⟨Text.ofString "/* \n */", .start⟩
    let hash : Token := ⟨some (.punct .hash), ⟨8, 2, 5⟩, [comment]⟩
    (hash ∈ tokenize main ∧ hash.position.Tells main ∧ comment.position.Tells main) ∧
      (∃ d e, Document.parse 1 part = .ok d ∧ e ∈ d.diagnostics ∧ e.position = ⟨21, 2, 10⟩ ∧
        e.position.Tells part) ∧
      ∃ deps dep, (Resolver.start [] [] 1).walk fs (Text.ofString "main") = .ok deps ∧
        dep ∈ deps ∧ dep.line = 2 ∧ dep.AtHash 1 fs := by
  intro main part fs comment hash
  obtain ⟨htokens, hdiagnostics, hwalk⟩ := positions_tell_text
  refine ⟨?_, ?_, ?_⟩
  · have hmem : hash ∈ tokenize main := by decide +kernel
    obtain ⟨htoken, hcomments⟩ := htokens main hash hmem
    exact ⟨hmem, htoken, hcomments comment (by simp [hash])⟩
  · obtain ⟨d, hd, hplaces⟩ := Document.exists_parse 1 part
      (fun d => d.diagnostics.map Diagnostic.position == [⟨21, 2, 10⟩]) (by decide +kernel)
    obtain ⟨e, he, hplace⟩ := List.map_eq_singleton_iff.mp (eq_of_beq hplaces)
    have hmem : e ∈ d.diagnostics := by simp [he]
    exact ⟨d, e, hd, hmem, hplace, (hdiagnostics 1 part d hd e hmem).2⟩
  · have hlines : (((Resolver.start [] [] 1).walk fs (Text.ofString "main")).toOption.any
        fun deps => deps.map Dependency.line == [2, 1]) = true := by decide +kernel
    cases hdeps : (Resolver.start [] [] 1).walk fs (Text.ofString "main") with
    | error e => simp [hdeps, Except.toOption] at hlines
    | ok deps =>
      have hlist : deps.map Dependency.line = [2, 1] := by
        simpa [hdeps, Except.toOption] using hlines
      obtain ⟨dep, more, rfl, hline, -⟩ := List.map_eq_cons_iff.mp hlist
      exact ⟨_, dep, rfl, List.mem_cons_self, hline, hwalk _ fs _ _ hdeps dep List.mem_cons_self⟩

end ShaderSyntax
