import OnlyDoge.Analytics.SqlText
import OnlyDoge.Library.Scanning
set_option autoImplicit false

/-! What the three passes of `stripSqlCommentsAndStrings` keep of a text, against one lexer. -/

namespace OnlyDoge.Analytics
open Regex Scanning

inductive PieceKind where
  | plain
  | blockComment
  | lineComment
  | literal
  deriving DecidableEq,Repr

structure SqlPiece where
  kind : PieceKind
  chars : List Char
  deriving DecidableEq,Repr

/-- The kind and the length of the piece that a text starts with; an unterminated comment or
literal is plain text. -/
def scanPiece (text : List Char) : PieceKind × Nat :=
  match scanBlockComment text with
  | some length => (.blockComment,length)
  | none =>
    match scanLineComment text with
    | some length => (.lineComment,length)
    | none =>
      match scanString text with
      | some length => (.literal,length)
      | none => (.plain,1)

def lexFrom : Nat → List Char → List SqlPiece
  | _,[] => []
  | skip + 1,_::text => lexFrom skip text
  | 0,c::text =>
    let piece := scanPiece (c::text)
    ⟨piece.1,(c::text).take piece.2⟩::lexFrom (piece.2 - 1) text

/-- The pieces of a text, from left to right in one pass. -/
def lexSql (sql : List Char) : List SqlPiece := lexFrom 0 sql

/-- What is left of a piece outside comments and literals. -/
def SqlPiece.outside (piece : SqlPiece) : List Char :=
  match piece.kind with
  | .plain => piece.chars
  | .blockComment | .lineComment => [' ']
  | .literal => ['\'','\'']

def outsideText (sql : List Char) : List Char := (lexSql sql).flatMap SqlPiece.outside

/-- A literal without its quotes. -/
def SqlPiece.literalText (piece : SqlPiece) : List Char := piece.chars.tail.dropLast

/-- A block comment that opens in the piece closes in it, and a line comment that opens in a literal
ends before its closing quote. -/
def SqlPiece.keepsContext (piece : SqlPiece) (rest : List Char) : Bool :=
  match piece.kind with
  | .plain | .blockComment => true
  | .lineComment => staysIn scanBlockComment rest 0 piece.chars
  | .literal => staysIn scanBlockComment ('\'' :: rest) 0 piece.literalText &&
      staysIn scanLineComment ['\''] 0 (replaceAll scanBlockComment [' '] piece.literalText)

/-- No comment opens in the context of another comment or of a literal and leaves it. -/
def commentsKeepContext : List SqlPiece → Bool
  | [] => true
  | piece::pieces =>
    piece.keepsContext (pieces.flatMap SqlPiece.chars) && commentsKeepContext pieces

theorem commentRest_cons {c : Char} {text : List Char} (h : ¬(c = '*' ∧ text.head? = some '/')) :
    commentRest (c::text) = (commentRest text).map (· + 1) := by
  rw [commentRest]
  rintro t rfl rfl
  exact h ⟨rfl,rfl⟩

theorem commentRest_cases {text : List Char} {n : Nat} (h : commentRest text = some n) :
    (∃ rest, text = '*' :: '/' :: rest ∧ n = 2) ∨ ∃ c rest m, text = c::rest ∧
      ¬(c = '*' ∧ rest.head? = some '/') ∧ commentRest rest = some m ∧ n = m + 1 := by
  cases text with
  | nil => cases h
  | cons c text =>
    by_cases hclose : c = '*' ∧ text.head? = some '/'
    · obtain ⟨rfl,hhead⟩ := hclose
      obtain ⟨rest,rfl⟩ := List.head?_eq_some_iff.mp hhead
      cases h
      exact Or.inl ⟨rest,rfl,rfl⟩
    · rw [commentRest_cons hclose] at h
      obtain ⟨m,hm,rfl⟩ := Option.map_eq_some_iff.mp h
      exact Or.inr ⟨c,text,m,rfl,hclose,hm,rfl⟩

theorem commentRest_bounds {text : List Char} {n : Nat} (h : commentRest text = some n) :
    2 ≤ n ∧ n ≤ text.length ∧ text[n - 1]? = some '/' := by
  induction text generalizing n with
  | nil => cases h
  | cons c text ih =>
    rcases commentRest_cases h with ⟨rest,heq,rfl⟩ | ⟨d,rest,m,heq,-,hm,rfl⟩
    · rw [heq]
      exact ⟨Nat.le_refl 2,by simp,rfl⟩
    · cases heq
      obtain ⟨hlow,hhigh,hlast⟩ := ih hm
      refine ⟨by omega,by simp only [List.length_cons]; omega,?_⟩
      obtain ⟨k,rfl⟩ := Nat.exists_eq_add_of_le' hlow
      exact hlast

theorem commentRest_inside {front rest : List Char} {n : Nat}
    (h : commentRest (front ++ rest) = some n) (hn : n ≤ front.length) :
    commentRest front = some n := by
  induction front generalizing n with
  | nil =>
    have := (commentRest_bounds h).1
    simp at hn
    omega
  | cons c front ih =>
    rcases commentRest_cases h with ⟨text,heq,rfl⟩ | ⟨d,text,m,heq,hopen,hm,rfl⟩
    · cases front with
      | nil => simp at hn
      | cons d front =>
        cases heq
        rfl
    · cases heq
      have hfront : ¬(c = '*' ∧ front.head? = some '/') := by
        rintro ⟨rfl,hhead⟩
        obtain ⟨t,rfl⟩ := List.head?_eq_some_iff.mp hhead
        exact hopen ⟨rfl,rfl⟩
      rw [commentRest_cons hfront,ih hm (by simpa using hn)]
      rfl

theorem commentRest_none_front {front rest : List Char} (h : commentRest (front ++ rest) = none) :
    commentRest front = none := by
  induction front with
  | nil => rfl
  | cons c front ih =>
    by_cases hclose : c = '*' ∧ front.head? = some '/'
    · obtain ⟨rfl,hhead⟩ := hclose
      obtain ⟨t,rfl⟩ := List.head?_eq_some_iff.mp hhead
      cases h
    · by_cases hsplit : c = '*' ∧ (front ++ rest).head? = some '/'
      · obtain ⟨rfl,hhead⟩ := hsplit
        obtain ⟨t,ht⟩ := List.head?_eq_some_iff.mp hhead
        rw [List.cons_append,ht] at h
        cases h
      · rw [List.cons_append,commentRest_cons hsplit,Option.map_eq_none_iff] at h
        rw [commentRest_cons hclose,ih h]
        rfl

theorem scanBlockComment_cases {text : List Char} {n : Nat} (h : scanBlockComment text = some n) :
    ∃ rest m, text = '/' :: '*' :: rest ∧ commentRest rest = some m ∧ n = m + 2 := by
  unfold scanBlockComment at h
  split at h
  · next rest =>
    obtain ⟨m,hm,rfl⟩ := Option.map_eq_some_iff.mp h
    exact ⟨rest,m,rfl,hm,rfl⟩
  · cases h

theorem scanner_scanBlockComment : Scanner scanBlockComment where
  positive := by
    intro text n h
    obtain ⟨rest,m,-,-,rfl⟩ := scanBlockComment_cases h
    omega
  bounded := by
    intro text n h
    obtain ⟨rest,m,rfl,hm,rfl⟩ := scanBlockComment_cases h
    have := (commentRest_bounds hm).2.1
    simp only [List.length_cons]
    omega
  inside := by
    intro front rest n h hn
    obtain ⟨text,m,heq,hm,rfl⟩ := scanBlockComment_cases h
    have hlow := (commentRest_bounds hm).1
    rcases front with _ | ⟨c,_ | ⟨d,front⟩⟩
    · simp at hn
    · simp at hn
    · cases heq
      rw [scanBlockComment,commentRest_inside hm (by simpa using hn)]
      rfl
  none_front := by
    intro front rest h
    cases hfront : scanBlockComment front with
    | none => rfl
    | some n =>
      obtain ⟨text,m,rfl,hm,rfl⟩ := scanBlockComment_cases hfront
      have hnone : commentRest (text ++ rest) = none := by
        simpa [scanBlockComment] using h
      rw [commentRest_none_front hnone] at hm
      cases hm

def endsLine (c : Char) : Bool := c = '\n' ∨ c = '\r'

theorem scanLineComment_cases {text : List Char} {n : Nat} (h : scanLineComment text = some n) :
    ∃ rest, text = '-' :: '-' :: rest ∧ n = 2 + (rest.takeWhile fun c => !endsLine c).length := by
  unfold scanLineComment at h
  split at h
  · next rest =>
    refine ⟨rest,rfl,?_⟩
    cases h
    simp [endsLine]
  · cases h

theorem scanLineComment_dashes (text : List Char) : scanLineComment ('-' :: '-' :: text) =
    some (2 + (text.takeWhile fun c => !endsLine c).length) := by
  simp [scanLineComment,endsLine]

theorem scanLineComment_eq_some {text : List Char} {n : Nat} : scanLineComment text = some n ↔
    ∃ found rest, text = '-' :: '-' :: found ++ rest ∧ n = found.length + 2 ∧
      (∀ c ∈ found, endsLine c = false) ∧ ∀ c, rest.head? = some c → endsLine c = true := by
  constructor
  · intro h
    obtain ⟨rest,rfl,rfl⟩ := scanLineComment_cases h
    refine ⟨rest.takeWhile fun c => !endsLine c,rest.dropWhile fun c => !endsLine c,?_,
      Nat.add_comm 2 _,?_,?_⟩
    · rw [List.cons_append,List.cons_append,List.takeWhile_append_dropWhile]
    · intro c hc
      have hall := List.all_eq_true.mp (List.all_takeWhile (p := fun c => !endsLine c) (l := rest))
      simpa using hall c hc
    · intro c hc
      have := List.head?_dropWhile_not (fun c => !endsLine c) rest
      rw [hc] at this
      simpa using this
  · rintro ⟨found,rest,rfl,rfl,hfound,hrest⟩
    rw [List.cons_append,List.cons_append,scanLineComment_dashes,
      List.takeWhile_append_of_pos fun c hc => by simp [hfound c hc]]
    have hstop : rest.takeWhile (fun c => !endsLine c) = [] := by
      cases rest with
      | nil => rfl
      | cons c rest => simp [hrest c rfl]
    rw [hstop,List.append_nil,Nat.add_comm]

theorem scanner_scanLineComment : Scanner scanLineComment where
  positive := by
    intro text n h
    obtain ⟨rest,-,rfl⟩ := scanLineComment_cases h
    omega
  bounded := by
    intro text n h
    obtain ⟨rest,rfl,rfl⟩ := scanLineComment_cases h
    have := List.Sublist.length_le (List.takeWhile_sublist (l := rest) fun c => !endsLine c)
    simp only [List.length_cons]
    omega
  inside := by
    intro front rest n h hn
    obtain ⟨text,heq,rfl⟩ := scanLineComment_cases h
    rcases front with _ | ⟨c,_ | ⟨d,front⟩⟩
    · simp at hn
    · simp at hn
      omega
    · simp only [List.cons_append,List.cons.injEq] at heq
      obtain ⟨rfl,rfl,rfl⟩ := heq
      rw [scanLineComment_dashes]
      simp only [List.length_cons] at hn
      rw [List.takeWhile_append] at hn ⊢
      split
      · next hall =>
        rw [if_pos hall] at hn
        rw [List.length_append] at hn ⊢
        congr 2
        omega
      · rfl
  none_front := by
    intro front rest h
    cases hfront : scanLineComment front with
    | none => rfl
    | some n =>
      obtain ⟨text,rfl,-⟩ := scanLineComment_cases hfront
      rw [List.cons_append,List.cons_append,scanLineComment_dashes] at h
      cases h

/-- Quotes stand in pairs only. -/
inductive Paired : List Char → Prop where
  | nil : Paired []
  | char {c : Char} {text : List Char} : c ≠ '\'' → Paired text → Paired (c::text)
  | pair {text : List Char} : Paired text → Paired ('\'' :: '\'' :: text)

/-- A quote before this text closes a literal: the text starts with no other quote, or with the
last one of all. -/
def ClosesBefore (text : List Char) : Prop :=
  text.head? ≠ some '\'' ∨ ∃ rest, text = '\'' :: rest ∧ '\'' ∉ rest

theorem literalRest_eq_none {text : List Char} : literalRest text = none ↔ '\'' ∉ text := by
  induction text using literalRest.induct with
  | case1 rest ih => simp [literalRest]
  | case2 text hpair =>
    rw [literalRest]
    · simp
    · exact hpair
  | case3 c rest hpair hquote ih =>
    have hc : c ≠ '\'' := fun heq => by
      subst heq
      exact hquote rfl
    rw [literalRest]
    · simp [ih,hc.symm]
    · exact hpair
    · exact hquote
  | case4 => simp [literalRest]

theorem literalRest_quote {text : List Char} (h : ClosesBefore text) :
    literalRest ('\'' :: text) = some 1 := by
  rcases h with hhead | ⟨rest,rfl,hrest⟩
  · rw [literalRest]
    rintro t rfl
    exact hhead rfl
  · rw [literalRest,literalRest_eq_none.mpr hrest]
    rfl

theorem literalRest_char {c : Char} {text : List Char} (h : c ≠ '\'') :
    literalRest (c::text) = (literalRest text).map (· + 1) := by
  rw [literalRest]
  · rintro t rfl
    exact absurd rfl h
  · rintro rfl
    exact absurd rfl h

theorem literalRest_eq_some {text : List Char} {n : Nat} : literalRest text = some n ↔
    ∃ body rest, text = body ++ '\'' :: rest ∧ n = body.length + 1 ∧ Paired body ∧
      ClosesBefore rest := by
  constructor
  · intro h
    induction text using literalRest.induct generalizing n with
    | case1 rest ih =>
      rw [literalRest] at h
      cases hrest : literalRest rest with
      | none =>
        rw [hrest] at h
        cases h
        exact ⟨[],'\'' :: rest,rfl,rfl,.nil,Or.inr ⟨rest,rfl,literalRest_eq_none.mp hrest⟩⟩
      | some m =>
        rw [hrest] at h
        cases h
        obtain ⟨body,tail,rfl,rfl,hbody,htail⟩ := ih hrest
        exact ⟨'\'' :: '\'' :: body,tail,rfl,by simp,.pair hbody,htail⟩
    | case2 text hpair =>
      rw [literalRest] at h
      · cases h
        refine ⟨[],text,rfl,rfl,.nil,Or.inl fun hhead => ?_⟩
        obtain ⟨rest,rfl⟩ := List.head?_eq_some_iff.mp hhead
        exact hpair rest rfl
      · exact hpair
    | case3 c rest hpair hquote ih =>
      have hc : c ≠ '\'' := fun heq => by
        subst heq
        exact hquote rfl
      rw [literalRest_char hc] at h
      obtain ⟨m,hm,rfl⟩ := Option.map_eq_some_iff.mp h
      obtain ⟨body,tail,rfl,rfl,hbody,htail⟩ := ih hm
      exact ⟨c::body,tail,rfl,by simp,.char hc hbody,htail⟩
    | case4 => simp [literalRest] at h
  · rintro ⟨body,rest,rfl,rfl,hbody,hrest⟩
    induction hbody with
    | nil => exact literalRest_quote hrest
    | char hc _ ih =>
      rw [List.cons_append,literalRest_char hc,ih]
      simp
    | pair _ ih =>
      rw [List.cons_append,List.cons_append,literalRest,ih]
      simp

theorem scanString_eq_some {text : List Char} {n : Nat} : scanString text = some n ↔
    ∃ body rest, text = '\'' :: body ++ '\'' :: rest ∧ n = body.length + 2 ∧ Paired body ∧
      ClosesBefore rest := by
  constructor
  · intro h
    unfold scanString at h
    split at h
    · next text =>
      obtain ⟨m,hm,rfl⟩ := Option.map_eq_some_iff.mp h
      obtain ⟨body,rest,rfl,rfl,hbody,hrest⟩ := literalRest_eq_some.mp hm
      exact ⟨body,rest,rfl,rfl,hbody,hrest⟩
    · cases h
  · rintro ⟨body,rest,rfl,rfl,hbody,hrest⟩
    rw [List.cons_append,scanString,literalRest_eq_some.mpr ⟨body,rest,rfl,rfl,hbody,hrest⟩]
    rfl

theorem Paired.drop {front rest : List Char} {c : Char} (hc : c ≠ '\'')
    (h : Paired (front ++ c::rest)) : Paired (c::rest) := by
  generalize htext : front ++ c::rest = text at h
  induction h generalizing front with
  | nil => simp at htext
  | @char d text hd hpaired ih =>
    cases front with
    | nil =>
      cases htext
      exact .char hd hpaired
    | cons e front =>
      cases htext
      exact ih rfl
  | @pair text _ ih =>
    rcases front with _ | ⟨d,_ | ⟨e,front⟩⟩
    · cases htext
      exact absurd rfl hc
    · cases htext
      exact absurd rfl hc
    · cases htext
      exact ih rfl

theorem Paired.tail {c : Char} {text : List Char} (hc : c ≠ '\'') (h : Paired (c::text)) :
    Paired text := by
  cases h with
  | char _ h => exact h
  | pair _ => exact absurd rfl hc

/-- Taking out matches that leave the quotes behind them in pairs keeps the quotes in pairs. -/
theorem Paired.replaceAll {scan : List Char → Option Nat} (hscan : Scanner scan)
    {rest body : List Char}
    (hfound : ∀ found part, scan (found ++ part ++ rest) = some found.length →
      Paired (found ++ part) → Paired part)
    (hquote : ∀ text, scan ('\'' :: text) = none) (h : Within scan rest body) :
    (Paired body → Paired (replaceAll scan [' '] body)) ∧
      (Paired ('\'' :: body) → Paired ('\'' :: replaceAll scan [' '] body)) := by
  induction h with
  | nil => exact ⟨id,id⟩
  | @skip c part hnone _ ih =>
    rw [replaceAll_skip (hscan.none_front (c::part) rest hnone)]
    constructor
    · intro hpaired
      by_cases hc : c = '\''
      · subst hc
        exact ih.2 hpaired
      · exact .char hc (ih.1 (hpaired.tail hc))
    · intro hpaired
      cases hpaired with
      | char hc _ => exact absurd rfl hc
      | pair hpaired => exact .pair (ih.1 hpaired)
  | @matched found part hmatch hne _ ih =>
    have halone : scan (found ++ part) = some found.length := hscan.inside _ _ _ hmatch (by simp)
    rw [replaceAll_matched halone hne]
    constructor
    · intro hpaired
      exact .char (by decide) (ih.1 (hfound found part hmatch hpaired))
    · intro hpaired
      cases found with
      | nil => exact absurd rfl hne
      | cons c found =>
        cases hpaired with
        | char hc _ => exact absurd rfl hc
        | pair _ =>
          rw [List.cons_append,hquote] at halone
          cases halone

theorem scanBlockComment_quote (text : List Char) : scanBlockComment ('\'' :: text) = none := rfl

theorem scanLineComment_quote (text : List Char) : scanLineComment ('\'' :: text) = none := rfl

theorem paired_behind_blockComment {found part rest : List Char}
    (h : scanBlockComment (found ++ part ++ rest) = some found.length)
    (hpaired : Paired (found ++ part)) : Paired part := by
  have halone : scanBlockComment found = some found.length := by
    refine scanner_scanBlockComment.inside found (part ++ rest) _ ?_ (Nat.le_refl _)
    rw [← List.append_assoc,h]
  obtain ⟨text,m,heq,hm,hlength⟩ := scanBlockComment_cases halone
  obtain ⟨hlow,-,hlast⟩ := commentRest_bounds hm
  have hfound : found = found.dropLast ++ ['/'] := by
    have hlast' : found.getLast? = some '/' := by
      rw [List.getLast?_eq_getElem?,hlength,heq]
      obtain ⟨k,rfl⟩ := Nat.exists_eq_add_of_le' hlow
      exact hlast
    exact (List.dropLast_append_getLast? '/' hlast').symm
  rw [hfound,List.append_assoc] at hpaired
  exact (Paired.drop (by decide) hpaired).tail (by decide)

theorem lineComment_before_quote {found part : List Char}
    (h : scanLineComment (found ++ part ++ ['\'']) = some found.length) :
    ∃ dashed c tail, found = '-' :: '-' :: dashed ∧ part = c::tail ∧ endsLine c = true ∧
      ∀ d ∈ dashed, endsLine d = false := by
  obtain ⟨dashed,rest,heq,hlength,hdashed,hrest⟩ := scanLineComment_eq_some.mp h
  rw [List.append_assoc] at heq
  obtain ⟨rfl,rfl⟩ := List.append_inj heq (by simp [hlength])
  cases part with
  | nil =>
    have := hrest '\'' rfl
    simp [endsLine] at this
  | cons c tail => exact ⟨dashed,c,tail,rfl,rfl,hrest c rfl,hdashed⟩

theorem paired_behind_lineComment {found part : List Char}
    (h : scanLineComment (found ++ part ++ ['\'']) = some found.length)
    (hpaired : Paired (found ++ part)) : Paired part := by
  obtain ⟨-,c,tail,-,rfl,hends,-⟩ := lineComment_before_quote h
  refine hpaired.drop fun heq => ?_
  subst heq
  simp [endsLine] at hends

theorem within_lineComment {part : List Char} (rest : List Char)
    (h : Within scanLineComment ['\''] part) : Within scanLineComment ('\'' :: rest) part := by
  induction h with
  | nil => exact .nil
  | @skip c part hnone _ ih =>
    refine .skip ?_ ih
    cases hscan : scanLineComment (c::part ++ '\'' :: rest) with
    | none => rfl
    | some n =>
      obtain ⟨dashed,tail,heq,-,-,-⟩ := scanLineComment_eq_some.mp hscan
      rcases part with _ | ⟨d,part⟩
      · cases heq
      · simp only [List.cons_append,List.cons.injEq] at heq
        obtain ⟨rfl,rfl,-⟩ := heq
        rw [List.cons_append,List.cons_append,scanLineComment_dashes] at hnone
        cases hnone
  | @matched found part hmatch hne _ ih =>
    obtain ⟨dashed,c,tail,rfl,rfl,hends,hdashed⟩ := lineComment_before_quote hmatch
    refine .matched (scanLineComment_eq_some.mpr
      ⟨dashed,c::tail ++ '\'' :: rest,by simp,rfl,hdashed,?_⟩) hne ih
    rintro d hd
    cases hd
    exact hends

/-- The pieces of a text, each with the text behind it. -/
inductive Lexed : List Char → List SqlPiece → Prop where
  | nil : Lexed [] []
  | plain {c : Char} {text : List Char} {pieces : List SqlPiece} :
      scanBlockComment (c::text) = none → scanLineComment (c::text) = none →
      scanString (c::text) = none → Lexed text pieces → Lexed (c::text) (⟨.plain,[c]⟩::pieces)
  | blockComment {found text : List Char} {pieces : List SqlPiece} :
      scanBlockComment (found ++ text) = some found.length → found ≠ [] → Lexed text pieces →
      Lexed (found ++ text) (⟨.blockComment,found⟩::pieces)
  | lineComment {found text : List Char} {pieces : List SqlPiece} :
      scanLineComment ('-' :: '-' :: found ++ text) = some (found.length + 2) → Lexed text pieces →
      Lexed ('-' :: '-' :: found ++ text) (⟨.lineComment,'-' :: '-' :: found⟩::pieces)
  | literal {body text : List Char} {pieces : List SqlPiece} :
      Paired body → ClosesBefore text → Lexed text pieces →
      Lexed ('\'' :: body ++ '\'' :: text) (⟨.literal,'\'' :: body ++ ['\'']⟩::pieces)

theorem lexFrom_drop (skip : Nat) (text : List Char) :
    lexFrom skip text = lexSql (text.drop skip) := by
  induction skip generalizing text with
  | zero => rfl
  | succ skip ih =>
    cases text with
    | nil => rfl
    | cons c text => exact ih text

theorem lexSql_append {found text : List Char} {kind : PieceKind} (hne : found ≠ [])
    (h : scanPiece (found ++ text) = (kind,found.length)) :
    lexSql (found ++ text) = ⟨kind,found⟩::lexSql text := by
  cases found with
  | nil => exact absurd rfl hne
  | cons c found =>
    rw [List.cons_append] at h ⊢
    rw [lexSql,lexFrom,h,lexFrom_drop]
    simp

theorem lexed_lexSql (sql : List Char) : Lexed sql (lexSql sql) := by
  induction hn : sql.length using Nat.strongRecOn generalizing sql with
  | ind n ih =>
    cases sql with
    | nil => exact .nil
    | cons c text =>
      simp only [List.length_cons] at hn
      cases hblock : scanBlockComment (c::text) with
      | some length =>
        have hpos := scanner_scanBlockComment.positive _ _ hblock
        have hle := scanner_scanBlockComment.bounded _ _ hblock
        have hsplit := List.take_append_drop length (c::text)
        have hlength : ((c::text).take length).length = length := by
          rw [List.length_take]
          omega
        have hne : (c::text).take length ≠ [] := fun h => by
          rw [h] at hlength
          simp at hlength
          omega
        have hrest := ih ((c::text).drop length).length (by
          simp only [List.length_drop,List.length_cons]
          omega) _ rfl
        have hpiece : scanPiece ((c::text).take length ++ (c::text).drop length) =
            (.blockComment,((c::text).take length).length) := by
          rw [hsplit,hlength,scanPiece,hblock]
        have hlexed := Lexed.blockComment (by rw [hsplit,hlength,hblock]) hne hrest
        rw [← lexSql_append hne hpiece,hsplit] at hlexed
        exact hlexed
      | none =>
        cases hline : scanLineComment (c::text) with
        | some length =>
          obtain ⟨rest,heq,hlen⟩ := scanLineComment_cases hline
          have hle := scanner_scanLineComment.bounded _ _ hline
          cases heq
          simp only [List.length_cons] at hle hn
          have hsplit := List.take_append_drop (length - 2) rest
          have hlength : (rest.take (length - 2)).length = length - 2 := by
            rw [List.length_take]
            omega
          have htext : '-' :: '-' :: rest.take (length - 2) ++ rest.drop (length - 2) =
              '-' :: '-' :: rest := by
            rw [List.cons_append,List.cons_append,hsplit]
          have hfound : length = (rest.take (length - 2)).length + 2 := by omega
          have hrest := ih (rest.drop (length - 2)).length (by rw [List.length_drop]; omega) _ rfl
          have hpiece : scanPiece ('-' :: '-' :: rest.take (length - 2) ++ rest.drop (length - 2)) =
              (.lineComment,('-' :: '-' :: rest.take (length - 2)).length) := by
            rw [htext,scanPiece,hblock]
            simp only [hline]
            rw [hfound]
            simp
          have hlexed := Lexed.lineComment (by rw [htext,hline,← hfound]) hrest
          rw [← lexSql_append (by simp) hpiece,htext] at hlexed
          exact hlexed
        | none =>
          cases hstring : scanString (c::text) with
          | some length =>
            obtain ⟨body,rest,heq,rfl,hbody,hcloses⟩ := scanString_eq_some.mp hstring
            have htext : '\'' :: body ++ ['\''] ++ rest = '\'' :: body ++ '\'' :: rest := by simp
            have hlen := congrArg List.length heq
            simp only [List.length_cons,List.length_append] at hlen
            have hrest := ih rest.length (by omega) rest rfl
            have hpiece : scanPiece ('\'' :: body ++ ['\''] ++ rest) =
                (.literal,('\'' :: body ++ ['\'']).length) := by
              rw [htext,← heq,scanPiece,hblock,hline]
              simp [hstring]
            have hlexed := Lexed.literal hbody hcloses hrest
            rw [← lexSql_append (by simp) hpiece,htext,← heq] at hlexed
            exact hlexed
          | none =>
            have hrest := ih text.length (by omega) text rfl
            have hpiece : scanPiece ([c] ++ text) = (.plain,[c].length) := by
              rw [List.singleton_append,scanPiece,hblock]
              simp only [hline,hstring,List.length_singleton]
            have hlexed := Lexed.plain hblock hline hstring hrest
            rw [← lexSql_append (by simp) hpiece] at hlexed
            exact hlexed

theorem Lexed.text {sql : List Char} {pieces : List SqlPiece} (h : Lexed sql pieces) :
    pieces.flatMap SqlPiece.chars = sql := by
  induction h with
  | nil => rfl
  | plain _ _ _ _ ih => rw [List.flatMap_cons,ih]; rfl
  | blockComment _ _ _ ih => rw [List.flatMap_cons,ih]
  | lineComment _ _ ih => rw [List.flatMap_cons,ih]
  | literal _ _ _ ih => rw [List.flatMap_cons,ih]; simp

namespace SqlPiece

/-- What the first pass leaves of a piece. -/
def withoutBlocks (piece : SqlPiece) : List Char :=
  match piece.kind with
  | .plain => piece.chars
  | .blockComment => [' ']
  | .lineComment => replaceAll scanBlockComment [' '] piece.chars
  | .literal => '\'' :: replaceAll scanBlockComment [' '] piece.literalText ++ ['\'']

/-- What the second pass leaves of a piece. -/
def withoutComments (piece : SqlPiece) : List Char :=
  match piece.kind with
  | .plain => piece.chars
  | .blockComment | .lineComment => [' ']
  | .literal => '\'' :: replaceAll scanLineComment [' ']
      (replaceAll scanBlockComment [' '] piece.literalText) ++ ['\'']

end SqlPiece

theorem literalText_quoted (body : List Char) :
    (SqlPiece.mk .literal ('\'' :: body ++ ['\''])).literalText = body := by
  simp [SqlPiece.literalText]

theorem withoutBlocks_literal (body : List Char) :
    (SqlPiece.mk .literal ('\'' :: body ++ ['\''])).withoutBlocks =
      '\'' :: replaceAll scanBlockComment [' '] body ++ ['\''] := by
  rw [SqlPiece.withoutBlocks,literalText_quoted]

theorem withoutComments_literal (body : List Char) :
    (SqlPiece.mk .literal ('\'' :: body ++ ['\''])).withoutComments =
      '\'' :: replaceAll scanLineComment [' '] (replaceAll scanBlockComment [' '] body) ++
        ['\''] := by
  rw [SqlPiece.withoutComments,literalText_quoted]

theorem replaceAll_dashes (found : List Char) :
    replaceAll scanBlockComment [' '] ('-' :: '-' :: found) =
      '-' :: '-' :: replaceAll scanBlockComment [' '] found := by
  rw [replaceAll_skip rfl,replaceAll_skip rfl]

section Passes
variable {sql : List Char} {pieces : List SqlPiece}

theorem firstPass (h : Lexed sql pieces) (hkeeps : commentsKeepContext pieces = true) :
    replaceAll scanBlockComment [' '] sql = pieces.flatMap SqlPiece.withoutBlocks := by
  induction h with
  | nil => rfl
  | plain hblock _ _ _ ih =>
    rw [replaceAll_skip hblock,ih hkeeps]
    rfl
  | blockComment hmatch hne _ ih =>
    rw [replaceAll_matched hmatch hne,ih hkeeps]
    rfl
  | @lineComment found text pieces _ hrest ih =>
    simp only [commentsKeepContext,SqlPiece.keepsContext,hrest.text,Bool.and_eq_true] at hkeeps
    have hwithin := within_of_staysIn scanner_scanBlockComment hkeeps.1
    rw [replaceAll_append scanner_scanBlockComment hwithin,ih hkeeps.2]
    rfl
  | @literal body text pieces _ _ hrest ih =>
    simp only [commentsKeepContext,SqlPiece.keepsContext,hrest.text,Bool.and_eq_true,
      literalText_quoted] at hkeeps
    have hwithin := within_of_staysIn scanner_scanBlockComment hkeeps.1.1
    rw [List.cons_append,replaceAll_skip (scanBlockComment_quote _),
      replaceAll_append scanner_scanBlockComment hwithin,
      replaceAll_skip (scanBlockComment_quote _),ih hkeeps.2,List.flatMap_cons,
      withoutBlocks_literal,List.append_assoc]
    rfl

theorem head_withoutBlocks (h : Lexed sql pieces) {c : Char} (hc : c ≠ ' ')
    (hhead : (pieces.flatMap SqlPiece.withoutBlocks).head? = some c) : sql.head? = some c := by
  cases h with
  | nil => exact hhead
  | plain _ _ _ _ => simpa [SqlPiece.withoutBlocks] using hhead
  | blockComment _ _ _ =>
    simp [SqlPiece.withoutBlocks] at hhead
    exact absurd hhead.symm hc
  | lineComment _ _ => simpa [SqlPiece.withoutBlocks,replaceAll_dashes] using hhead
  | literal _ _ _ => simpa [SqlPiece.withoutBlocks] using hhead

theorem head_of_endsLine {text : List Char} (h : Lexed text pieces)
    (hends : ∀ c, text.head? = some c → endsLine c = true) {c : Char}
    (hhead : (pieces.flatMap SqlPiece.withoutBlocks).head? = some c) : endsLine c = true := by
  by_cases hc : c = ' '
  · subst hc
    cases h with
    | nil => cases hhead
    | plain _ _ _ _ => exact hends ' ' (by simpa [SqlPiece.withoutBlocks] using hhead)
    | blockComment hmatch _ _ =>
      obtain ⟨rest,m,heq,-,-⟩ := scanBlockComment_cases hmatch
      have := hends '/' (by rw [heq]; rfl)
      simp [endsLine] at this
    | lineComment _ _ => simp [SqlPiece.withoutBlocks,replaceAll_dashes] at hhead
    | literal _ _ _ => simp [SqlPiece.withoutBlocks] at hhead
  · exact hends c (head_withoutBlocks h hc hhead)

theorem secondPass (h : Lexed sql pieces) (hkeeps : commentsKeepContext pieces = true) :
    replaceAll scanLineComment [' '] (pieces.flatMap SqlPiece.withoutBlocks) =
      pieces.flatMap SqlPiece.withoutComments := by
  induction h with
  | nil => rfl
  | @plain c text pieces _ hline _ hrest ih =>
    have hnone : scanLineComment (c::pieces.flatMap SqlPiece.withoutBlocks) = none := by
      cases hscan : scanLineComment (c::pieces.flatMap SqlPiece.withoutBlocks) with
      | none => rfl
      | some n =>
        obtain ⟨rest,heq,-⟩ := scanLineComment_cases hscan
        obtain ⟨rfl,htail⟩ := List.cons.inj heq
        have hhead := head_withoutBlocks hrest (c := '-') (by decide) (by rw [htail]; rfl)
        obtain ⟨tail,rfl⟩ := List.head?_eq_some_iff.mp hhead
        rw [scanLineComment_dashes] at hline
        cases hline
    change replaceAll scanLineComment [' '] (c::pieces.flatMap SqlPiece.withoutBlocks) = _
    rw [replaceAll_skip hnone,ih hkeeps]
    rfl
  | @blockComment found text pieces _ _ _ ih =>
    change replaceAll scanLineComment [' '] (' ' :: pieces.flatMap SqlPiece.withoutBlocks) = _
    rw [replaceAll_skip rfl,ih hkeeps]
    rfl
  | @lineComment found text pieces hmatch hrest ih =>
    simp only [commentsKeepContext,Bool.and_eq_true] at hkeeps
    obtain ⟨found',text',heq,hlength,hfound,htext⟩ := scanLineComment_eq_some.mp hmatch
    simp only [List.cons_append,List.cons.injEq,true_and] at heq
    obtain ⟨rfl,rfl⟩ := List.append_inj heq (by omega)
    have hclean : ∀ c ∈ replaceAll scanBlockComment [' '] found, endsLine c = false := by
      intro c hc
      rcases mem_replaceAll hc with hc | hc
      · obtain rfl := List.mem_singleton.mp hc
        rfl
      · exact hfound c hc
    have hscan : scanLineComment (('-' :: '-' :: replaceAll scanBlockComment [' '] found) ++
        pieces.flatMap SqlPiece.withoutBlocks) =
        some ('-' :: '-' :: replaceAll scanBlockComment [' '] found).length :=
      scanLineComment_eq_some.mpr ⟨_,_,rfl,rfl,hclean,fun c hc => head_of_endsLine hrest htext hc⟩
    rw [List.flatMap_cons,SqlPiece.withoutBlocks]
    simp only [replaceAll_dashes]
    rw [replaceAll_matched hscan (by simp),ih hkeeps.2]
    rfl
  | @literal body text pieces _ _ hrest ih =>
    simp only [commentsKeepContext,SqlPiece.keepsContext,Bool.and_eq_true,literalText_quoted]
      at hkeeps
    have hwithin := within_lineComment (pieces.flatMap SqlPiece.withoutBlocks)
      (within_of_staysIn scanner_scanLineComment hkeeps.1.2)
    rw [List.flatMap_cons,List.flatMap_cons,withoutBlocks_literal,withoutComments_literal]
    simp only [List.cons_append,List.append_assoc,List.nil_append]
    rw [replaceAll_skip (scanLineComment_quote _),
      replaceAll_append scanner_scanLineComment hwithin,
      replaceAll_skip (scanLineComment_quote _),ih hkeeps.2]

theorem mem_withoutComments (h : Lexed sql pieces) {c : Char}
    (hc : c ∈ pieces.flatMap SqlPiece.withoutComments) : c = ' ' ∨ c ∈ sql := by
  induction h with
  | nil => cases hc
  | plain _ _ _ _ ih =>
    rcases List.mem_append.mp hc with hc | hc
    · exact Or.inr (List.mem_cons.mpr (Or.inl (List.mem_singleton.mp hc)))
    · exact (ih hc).imp_right (List.mem_cons_of_mem _)
  | blockComment _ _ _ ih =>
    rcases List.mem_append.mp hc with hc | hc
    · exact Or.inl (List.mem_singleton.mp hc)
    · exact (ih hc).imp_right (List.mem_append_right _)
  | lineComment _ _ ih =>
    rcases List.mem_append.mp hc with hc | hc
    · exact Or.inl (List.mem_singleton.mp hc)
    · exact (ih hc).imp_right (List.mem_append_right _)
  | @literal body text pieces _ _ _ ih =>
    rw [List.flatMap_cons,withoutComments_literal] at hc
    simp only [List.cons_append,List.mem_cons,List.mem_append,List.not_mem_nil,or_false] at hc ⊢
    rcases hc with hc | (hc | hc) | hc
    · exact Or.inr (Or.inl hc)
    · rcases mem_replaceAll hc with hc | hc
      · exact Or.inl (List.mem_singleton.mp hc)
      · rcases mem_replaceAll hc with hc | hc
        · exact Or.inl (List.mem_singleton.mp hc)
        · exact Or.inr (Or.inr (Or.inl hc))
    · exact Or.inr (Or.inl hc)
    · exact (ih hc).imp_right fun h => Or.inr (Or.inr (Or.inr h))

theorem head_withoutComments (h : Lexed sql pieces)
    (hhead : (pieces.flatMap SqlPiece.withoutComments).head? = some '\'') :
    sql.head? = some '\'' := by
  cases h with
  | nil => exact hhead
  | plain _ _ _ _ => simpa [SqlPiece.withoutComments] using hhead
  | blockComment _ _ _ => simp [SqlPiece.withoutComments] at hhead
  | lineComment _ _ => simp [SqlPiece.withoutComments] at hhead
  | literal _ _ _ => rfl

theorem closesBefore_withoutComments (h : Lexed sql pieces) (hcloses : ClosesBefore sql) :
    ClosesBefore (pieces.flatMap SqlPiece.withoutComments) := by
  rcases hcloses with hhead | ⟨rest,rfl,hrest⟩
  · exact Or.inl fun hquote => hhead (head_withoutComments h hquote)
  · generalize hsql : '\'' :: rest = sql at h
    cases h with
    | nil => cases hsql
    | plain _ _ _ htext =>
      cases hsql
      refine Or.inr ⟨_,rfl,fun hquote => ?_⟩
      rcases mem_withoutComments htext hquote with hspace | hmem
      · cases hspace
      · exact hrest hmem
    | blockComment hmatch _ _ =>
      rw [← hsql] at hmatch
      cases hmatch
    | lineComment _ _ => cases hsql
    | literal _ _ _ =>
      cases hsql
      simp at hrest

theorem thirdPass (h : Lexed sql pieces) (hkeeps : commentsKeepContext pieces = true) :
    replaceAll scanString ['\'','\''] (pieces.flatMap SqlPiece.withoutComments) =
      pieces.flatMap SqlPiece.outside := by
  induction h with
  | nil => rfl
  | @plain c text pieces _ _ hstring hrest ih =>
    have hnone : scanString (c::pieces.flatMap SqlPiece.withoutComments) = none := by
      by_cases hc : c = '\''
      · subst hc
        have htext : '\'' ∉ text := by
          rw [← literalRest_eq_none]
          exact Option.map_eq_none_iff.mp hstring
        have hleft : '\'' ∉ pieces.flatMap SqlPiece.withoutComments := by
          intro hquote
          rcases mem_withoutComments hrest hquote with hspace | hmem
          · cases hspace
          · exact htext hmem
        rw [scanString,literalRest_eq_none.mpr hleft]
        rfl
      · unfold scanString
        split
        · next heq => exact absurd (List.cons.inj heq).1 hc
        · rfl
    change replaceAll scanString _ (c::pieces.flatMap SqlPiece.withoutComments) = _
    rw [replaceAll_skip hnone,ih hkeeps]
    rfl
  | @blockComment found text pieces _ _ _ ih =>
    change replaceAll scanString _ (' ' :: pieces.flatMap SqlPiece.withoutComments) = _
    rw [replaceAll_skip rfl,ih hkeeps]
    rfl
  | @lineComment found text pieces _ _ ih =>
    simp only [commentsKeepContext,Bool.and_eq_true] at hkeeps
    change replaceAll scanString _ (' ' :: pieces.flatMap SqlPiece.withoutComments) = _
    rw [replaceAll_skip rfl,ih hkeeps.2]
    rfl
  | @literal body text pieces hbody hcloses hrest ih =>
    simp only [commentsKeepContext,SqlPiece.keepsContext,hrest.text,Bool.and_eq_true,
      literalText_quoted] at hkeeps
    have hblocks := within_of_staysIn scanner_scanBlockComment hkeeps.1.1
    have hlines := within_of_staysIn scanner_scanLineComment hkeeps.1.2
    have hfirst := (Paired.replaceAll scanner_scanBlockComment
      (fun _ _ => paired_behind_blockComment) scanBlockComment_quote hblocks).1 hbody
    have hsecond := (Paired.replaceAll scanner_scanLineComment
      (fun _ _ => paired_behind_lineComment) scanLineComment_quote hlines).1 hfirst
    have hscan := scanString_eq_some.mpr ⟨_,_,rfl,rfl,hsecond,
      closesBefore_withoutComments hrest hcloses⟩
    have hmatch : scanString ('\'' :: replaceAll scanLineComment [' ']
        (replaceAll scanBlockComment [' '] body) ++ ['\''] ++
          pieces.flatMap SqlPiece.withoutComments) =
        some ('\'' :: replaceAll scanLineComment [' ']
          (replaceAll scanBlockComment [' '] body) ++ ['\'']).length := by
      rw [List.append_assoc,List.singleton_append,hscan]
      simp
    rw [List.flatMap_cons,withoutComments_literal,replaceAll_matched hmatch (by simp),ih hkeeps.2]
    rfl

end Passes

theorem stripSqlCommentsAndStrings_eq {sql : List Char}
    (h : commentsKeepContext (lexSql sql) = true) :
    stripSqlCommentsAndStrings sql = outsideText sql := by
  have hlexed := lexed_lexSql sql
  rw [stripSqlCommentsAndStrings,firstPass hlexed h,secondPass hlexed h,thirdPass hlexed h]
  rfl

/-- The disallowed clauses and the predicates of the policies that are found are those that stand
outside comments and literals. -/
structure SeesOutside (sql : List Char) : Prop where
  text : stripSqlCommentsAndStrings sql = outsideText sql
  clauses : assertNoDisallowedSqlClauses sql = .ok () ↔
    ∀ clause ∈ disallowedSqlPatterns, clause.2.test (outsideText sql) = false
  predicates : ∀ predicates,
    assertTablePredicates (stripSqlCommentsAndStrings sql) predicates = .ok () ↔
      ∀ predicate ∈ predicates, predicate.2.test (outsideText sql) = true

/-- Where no comment leaves the context that it opens in, the three passes keep exactly what one
lexer finds outside comments and literals, and the checks see nothing else. -/
theorem seesOutside_of_commentsKeepContext {sql : List Char}
    (h : commentsKeepContext (lexSql sql) = true) : SeesOutside sql where
  text := stripSqlCommentsAndStrings_eq h
  clauses := by rw [assertNoDisallowedSqlClauses_eq_ok,stripSqlCommentsAndStrings_eq h]
  predicates := by
    intro predicates
    rw [assertTablePredicates_eq_ok,stripSqlCommentsAndStrings_eq h]

theorem seesOutside_nested :
    SeesOutside "SELECT 'it''s -- /* a */\n' /* FINAL '' */ FROM t -- FORMAT '\n WHERE a = 'b'".toList :=
  seesOutside_of_commentsKeepContext (by decide +kernel)

/-- The block comment that opens in one literal closes in another, and hides `FINAL` between. -/
theorem final_hidden_between_literals :
    assertNoDisallowedSqlClauses "SELECT '/*' FROM t FINAL WHERE a = '*/'".toList = .ok () ∧
      (word "FINAL").test (outsideText "SELECT '/*' FROM t FINAL WHERE a = '*/'".toList) = true ∧
      ¬SeesOutside "SELECT '/*' FROM t FINAL WHERE a = '*/'".toList := by
  have haccepted :
      assertNoDisallowedSqlClauses "SELECT '/*' FROM t FINAL WHERE a = '*/'".toList = .ok () := by
    rw [assertNoDisallowedSqlClauses_eq_ok]
    decide +kernel
  have hfinal :
      (word "FINAL").test
        (outsideText "SELECT '/*' FROM t FINAL WHERE a = '*/'".toList) = true := by
    decide +kernel
  refine ⟨haccepted,hfinal,fun h => ?_⟩
  have hnone := h.clauses.mp haccepted ("FINAL",word "FINAL") List.mem_cons_self
  rw [hfinal] at hnone
  cases hnone

end OnlyDoge.Analytics
