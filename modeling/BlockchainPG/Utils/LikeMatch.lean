import Mathlib

/-! The matcher of `like_match.c` against the meaning of patterns. -/

namespace BlockchainPG.Utils.Like

open List

/-- What a pattern is made of. -/
inductive Token where
  | lit (c : Char)
  | any
  | one

/-- What a character stands for that is not escaped. -/
def plainToken (c : Char) : Token := if c = '%' then .any else if c = '_' then .one else .lit c

/-- The tokens of a pattern; `none` if it ends in an escape character without a partner. -/
def tokens (esc : Option Char) : List Char → Option (List Token)
  | [] => some []
  | c :: p =>
    if some c = esc then
      match p with
      | [] => none
      | d :: p => (tokens esc p).map (.lit d :: ·)
    else (tokens esc p).map (plainToken c :: ·)

/-- A text matches a list of tokens, where `tchar` says which characters count as the same. -/
def Matches (tchar : Char → Char) : List Token → List Char → Prop
  | [], t => t = []
  | .lit d :: ts, t => ∃ c u, t = c :: u ∧ tchar d = tchar c ∧ Matches tchar ts u
  | .one :: ts, t => ∃ c u, t = c :: u ∧ Matches tchar ts u
  | .any :: ts, t => ∃ u, u <:+ t ∧ Matches tchar ts u

/-- The texts that a pattern stands for. -/
def Denotes (tchar : Char → Char) (esc : Option Char) (p t : List Char) : Prop :=
  ∃ ts, tokens esc p = some ts ∧ Matches tchar ts t

/-- `LIKE_TRUE`, `LIKE_FALSE` and `LIKE_ABORT` -/
inductive Result where
  | likeTrue
  | likeFalse
  | likeAbort
deriving DecidableEq

section Code

/-- The scans for a place that matches the rest of the pattern, at the characters that may begin it. -/
def search (may : Char → Bool) (matchText : List Char → Option Result) : List Char → Option Result
  | [] => some .likeAbort
  | c :: t =>
    if may c then
      match matchText (c :: t) with
      | some .likeFalse => search may matchText t
      | matched => matched
    else search may matchText t

/-- The loop that takes a character for every `_` behind a `%`. -/
def skipOnes : List Char → List Char → List Char × List Char
  | t, [] => (t, [])
  | t, _ :: p => if t.tail ≠ [] ∧ p.head? = some '_' then skipOnes t.tail p else (t.tail, p)

theorem skipOnes_length (t : List Char) (c : Char) (p : List Char) : (skipOnes t (c :: p)).2.length ≤ p.length := by
  induction p generalizing t c with
  | nil => simp [skipOnes]
  | cons d p ih =>
    rw [skipOnes]
    split
    · exact (ih t.tail d).trans (Nat.le_succ _)
    · exact le_rfl

def fastPath (p : List Char) (matched : Option Result) : Option Result :=
  if p = ['%'] then some .likeTrue else matched

/-- The loop of `MatchText` and what follows it; `none` is the error "LIKE pattern must not end with escape
character". -/
def matchLoop (tchar : Char → Char) : List Char → List Char → Option Result
  | [], p => some (if p.dropWhile (· = '%') = [] then .likeTrue else .likeAbort)
  | _ :: _, [] => some .likeFalse
  | c :: t, d :: p =>
    if d = '\\' then
      match p with
      | [] => none
      | e :: p => if tchar e ≠ tchar c then some .likeFalse else matchLoop tchar t p
    else if d = '%' then
      match rest : p.dropWhile (· = '%') with
      | [] => some .likeTrue
      | e :: q =>
        have : q.length < p.length := by
          have := (dropWhile_suffix (l := p) (· = '%')).length_le
          rw [rest, length_cons] at this
          exact this
        if e = '_' then
          have := skipOnes_length (c :: t) e q
          if (skipOnes (c :: t) (e :: q)).2 = [] then some .likeTrue
          else search (fun _ => true) (fun u => fastPath (skipOnes (c :: t) (e :: q)).2
            (matchLoop tchar u (skipOnes (c :: t) (e :: q)).2)) (skipOnes (c :: t) (e :: q)).1
        else if e = '\\' ∧ q = [] then some .likeFalse
        else search (fun c => tchar c = tchar (if e = '\\' then q.headD e else e))
          (fun u => fastPath (e :: q) (matchLoop tchar u (e :: q))) (c :: t)
    else if d = '_' then matchLoop tchar t p
    else if tchar d ≠ tchar c then some .likeFalse
    else matchLoop tchar t p
termination_by _ p => p.length

def matchText (tchar : Char → Char) (t p : List Char) : Option Result := fastPath p (matchLoop tchar t p)

/-- The conversion loop of `do_like_escape`. -/
def escapeLoop (e : Char) (afterescape : Bool) : List Char → List Char
  | [] => []
  | c :: p =>
    if c = e ∧ afterescape = false then '\\' :: escapeLoop e true p
    else if c = '\\' then
      if afterescape then '\\' :: escapeLoop e false p else '\\' :: '\\' :: escapeLoop e false p
    else c :: escapeLoop e false p

/-- `none` is the error "invalid escape string". -/
def doLikeEscape (pat esc : List Char) : Option (List Char) :=
  match esc with
  | [] => some (pat.flatMap fun c => if c = '\\' then ['\\', c] else [c])
  | [e] => some (if e = '\\' then pat else escapeLoop e false pat)
  | _ => none

end Code

section Tokens

theorem tokens_escaped (c d : Char) (p : List Char) :
    tokens (some c) (c :: d :: p) = (tokens (some c) p).map (.lit d :: ·) := by
  rw [tokens.eq_def]
  exact if_pos rfl

theorem tokens_plain (plain : some c ≠ esc) (p : List Char) :
    tokens esc (c :: p) = (tokens esc p).map (plainToken c :: ·) := by
  rw [tokens.eq_def]
  exact if_neg plain

theorem escapeLoop_after (e d : Char) (p : List Char) : escapeLoop e true (d :: p) = d :: escapeLoop e false p := by
  by_cases slash : d = '\\' <;> simp [escapeLoop, slash]

theorem tokens_escapeLoop (other : e ≠ '\\') : ∀ p, tokens (some '\\') (escapeLoop e false p) = tokens (some e) p
  | [] => rfl
  | c :: p => by
    rw [escapeLoop]
    by_cases own : c = e
    · subst own
      rw [if_pos ⟨rfl, rfl⟩]
      cases p with
      | nil => simp [tokens, escapeLoop]
      | cons d p => rw [escapeLoop_after, tokens_escaped, tokens_escaped, tokens_escapeLoop other p]
    · rw [if_neg fun both => own both.1, tokens_plain fun same => own (Option.some.inj same)]
      by_cases slash : c = '\\'
      · subst slash
        rw [if_pos rfl, if_neg (by decide), tokens_escaped, tokens_escapeLoop other p]
        rfl
      · rw [if_neg slash, tokens_plain fun same => slash (Option.some.inj same), tokens_escapeLoop other p]

theorem tokens_doubled (p : List Char) :
    tokens (some '\\') (p.flatMap fun c => if c = '\\' then ['\\', c] else [c]) = tokens none p := by
  induction p with
  | nil => rfl
  | cons c p ih =>
    rw [flatMap_cons, tokens_plain (Option.some_ne_none c), ← ih]
    by_cases slash : c = '\\'
    · subst slash
      rw [if_pos rfl]
      exact tokens_escaped ..
    · rw [if_neg slash]
      exact tokens_plain (fun same => slash (Option.some.inj same)) _

theorem escapeLoop_length (e : Char) (afterescape : Bool) (p : List Char) :
    (escapeLoop e afterescape p).length ≤ 2 * p.length := by
  induction p generalizing afterescape with
  | nil => exact le_rfl
  | cons c p ih =>
    have left := ih true
    have right := ih false
    rw [escapeLoop]
    split_ifs <;> simp only [length_cons] <;> omega

/-- A converted pattern stands for the same texts and is at most twice as long. -/
theorem doLikeEscape_denotes (tchar : Char → Char) (pat : List Char) (esc : Option Char) :
    ∃ result, doLikeEscape pat esc.toList = some result ∧ result.length ≤ 2 * pat.length ∧
      ∀ text, Denotes tchar (some '\\') result text ↔ Denotes tchar esc pat text := by
  cases esc with
  | none =>
    refine ⟨_, rfl, ?_, fun text => by rw [Denotes, tokens_doubled, Denotes]⟩
    induction pat with
    | nil => exact le_rfl
    | cons c pat ih =>
      rw [flatMap_cons, length_append, length_cons]
      split <;> simp only [length_cons, length_nil] <;> omega
  | some e =>
    refine ⟨_, rfl, ?_⟩
    by_cases slash : e = '\\'
    · rw [if_pos slash, slash]
      exact ⟨by omega, fun text => Iff.rfl⟩
    · rw [if_neg slash]
      exact ⟨escapeLoop_length .., fun text => by rw [Denotes, tokens_escapeLoop slash, Denotes]⟩

end Tokens

section Meaning

variable {tchar : Char → Char}

/-- Characters that a match needs at least. -/
def weight : List Token → Nat
  | [] => 0
  | .any :: ts => weight ts
  | _ :: ts => weight ts + 1

/-- From some `%_` on there are only wildcards, the last one a `%`. -/
def Defective : List Token → Prop
  | [] => False
  | .any :: .one :: ts => Defective ts ∨ (∀ c, .lit c ∉ ts) ∧ ts.getLast? = some .any
  | _ :: ts => Defective ts

theorem exists_least_text (tchar : Char → Char) (ts : List Token) : ∃ t, Matches tchar ts t ∧ t.length = weight ts := by
  induction ts with
  | nil => exact ⟨[], rfl, rfl⟩
  | cons token ts ih =>
    obtain ⟨t, matched, length⟩ := ih
    cases token with
    | lit c => exact ⟨c :: t, ⟨c, t, rfl, rfl, matched⟩, congrArg (· + 1) length⟩
    | any => exact ⟨t, ⟨t, suffix_rfl, matched⟩, length⟩
    | one => exact ⟨'_' :: t, ⟨'_', t, rfl, matched⟩, congrArg (· + 1) length⟩

theorem all_any_of_matches_nil (matched : Matches tchar ts []) : ∀ token ∈ ts, token = .any := by
  induction ts with
  | nil => simp
  | cons token ts ih =>
    cases token with
    | lit c => simp [Matches] at matched
    | one => simp [Matches] at matched
    | any =>
      obtain ⟨u, suffix, rest⟩ := matched
      rw [suffix_nil.mp suffix] at rest
      simpa using ih rest

theorem matches_nil_of_all_any (all : ∀ token ∈ ts, token = .any) : Matches tchar ts [] := by
  induction ts with
  | nil => rfl
  | cons token ts ih =>
    obtain ⟨rfl, rest⟩ := forall_mem_cons.mp all
    exact ⟨[], suffix_rfl, ih rest⟩

theorem weight_of_all_any (all : ∀ token ∈ ts, token = .any) : weight ts = 0 := by
  induction ts with
  | nil => rfl
  | cons token ts ih =>
    obtain ⟨rfl, rest⟩ := forall_mem_cons.mp all
    exact ih rest

theorem matches_any_any : Matches tchar (.any :: .any :: ts) t ↔ Matches tchar (.any :: ts) t := by
  constructor
  · rintro ⟨u, first, v, second, matched⟩
    exact ⟨v, second.trans first, matched⟩
  · intro matched
    exact ⟨t, suffix_rfl, matched⟩

theorem matches_ones (j : Nat) (t : List Char) :
    Matches tchar (replicate j .one ++ ts) t ↔ j ≤ t.length ∧ Matches tchar ts (t.drop j) := by
  induction j generalizing t with
  | zero => simp
  | succ j ih =>
    cases t with
    | nil => simp [replicate_succ, Matches]
    | cons c t => simp [replicate_succ, Matches, ih]

theorem matches_any_ones (j : Nat) (t : List Char) : Matches tchar (.any :: (replicate j .one ++ ts)) t ↔
      j ≤ t.length ∧ ∃ u, u <:+ t.drop j ∧ Matches tchar ts u := by
  constructor
  · rintro ⟨u, suffix, matched⟩
    obtain ⟨enough, matched⟩ := (matches_ones j u).mp matched
    refine ⟨enough.trans suffix.length_le, _, ?_, matched⟩
    rw [suffix_iff_eq_drop.mp suffix, drop_drop, Nat.add_comm, ← drop_drop]
    exact drop_suffix ..
  · rintro ⟨enough, u, suffix, matched⟩
    have short := suffix.length_le
    rw [length_drop] at short
    refine ⟨t.drop (t.length - j - u.length), drop_suffix .., (matches_ones j _).mpr ⟨?_, ?_⟩⟩
    · rw [length_drop]
      omega
    · rw [drop_drop, Nat.add_comm, ← drop_drop]
      rw [suffix_iff_eq_drop.mp suffix, length_drop] at matched
      exact matched

theorem defective_ones (j : Nat) : Defective (replicate j .one ++ ts) ↔ Defective ts := by
  induction j with
  | zero => rfl
  | succ j ih => exact ih

/-- Wildcards that end in `%` and need a character have a `%_` in front of it, or begin with the `_`. -/
theorem all_any_of_wild (wild : ∀ c, .lit c ∉ ts) (last : ts.getLast? = some .any) (first : ts.head? ≠ some .one)
    (sound : ¬ Defective ts) : ∀ token ∈ ts, token = .any := by
  induction ts with
  | nil => simp
  | cons token ts ih =>
    cases token with
    | lit c => exact absurd mem_cons_self (wild c)
    | one => exact absurd rfl first
    | any =>
      cases ts with
      | nil => simp
      | cons next ts =>
        have wild' : ∀ c, Token.lit c ∉ next :: ts := fun c mem => wild c (mem_cons_of_mem _ mem)
        rw [getLast?_cons_cons] at last
        cases next with
        | lit c => exact absurd mem_cons_self (wild' c)
        | any => simpa using ih wild' last (by simp) sound
        | one =>
          refine absurd (Or.inr ⟨fun c mem => wild' c (mem_cons_of_mem _ mem), ?_⟩) sound
          cases ts with
          | nil => simp at last
          | cons _ _ => rwa [getLast?_cons_cons] at last

theorem not_defective_of_all_any (all : ∀ token ∈ ts, token = .any) : ¬ Defective ts := by
  induction ts with
  | nil => exact id
  | cons token ts ih =>
    obtain ⟨rfl, rest⟩ := forall_mem_cons.mp all
    cases ts with
    | nil => exact id
    | cons next ts =>
      obtain ⟨rfl, -⟩ := forall_mem_cons.mp rest
      exact ih rest

theorem Defective.cons (defective : Defective ts) (token : Token) : Defective (token :: ts) := by
  cases token with
  | lit c => exact defective
  | one => exact defective
  | any =>
    cases ts with
    | nil => exact defective
    | cons next ts =>
      cases next with
      | one => exact Or.inl defective
      | lit c => exact defective
      | any => exact defective

theorem weight_ones (j : Nat) : weight (replicate j .one ++ ts) = j + weight ts := by
  induction j with
  | zero => simp
  | succ j ih =>
    show weight (replicate j .one ++ ts) + 1 = _
    rw [ih]
    omega

end Meaning

section Matching

variable {tchar : Char → Char}

/-- What a result says about a text; a defective pattern is matched only by texts that have a character more. -/
structure Right (tchar : Char → Char) (ts : List Token) (t : List Char) (result : Result) : Prop where
  sound : result = .likeTrue → Matches tchar ts t ∧ (Defective ts → weight ts < t.length)
  complete : ¬ Defective ts → Matches tchar ts t → result = .likeTrue
  abort : ¬ Defective ts → result = .likeAbort → ∀ u, u <:+ t → ¬ Matches tchar ts u

theorem Right.of_false (none : ¬ Matches tchar ts t) : Right tchar ts t .likeFalse :=
  ⟨by simp, fun _ matched => absurd matched none, by simp⟩

/-- A token that takes one character. -/
theorem Right.cons (right : Right tchar ts t result)
    (takes : ∀ c t, Matches tchar (token :: ts) (c :: t) → Matches tchar ts t)
    (empty : ¬ Matches tchar (token :: ts) [])
    (given : Matches tchar ts t → Matches tchar (token :: ts) (c :: t))
    (defect : Defective (token :: ts) ↔ Defective ts)
    (needs : weight (token :: ts) = weight ts + 1) : Right tchar (token :: ts) (c :: t) result := by
  refine ⟨fun yes => ?_, fun sound matched => ?_, fun sound yes u suffix matched => ?_⟩
  · obtain ⟨matched, longer⟩ := right.sound yes
    refine ⟨given matched, fun defective => ?_⟩
    rw [needs, length_cons]
    exact Nat.succ_lt_succ (longer (defect.mp defective))
  · exact right.complete (mt defect.mpr sound) (takes c t matched)
  · cases u with
    | nil => exact empty matched
    | cons d u =>
      have inner : u <:+ t := by
        rcases suffix_cons_iff.mp suffix with same | inside
        · rw [(List.cons.inj same).2]
        · exact (suffix_cons d u).trans inside
      exact right.abort (mt defect.mpr sound) yes u inner (takes d u matched)

theorem Right.lit (right : Right tchar ts t result) (same : tchar d = tchar c) :
    Right tchar (.lit d :: ts) (c :: t) result := by
  refine right.cons ?_ (by simp [Matches]) (fun matched => ⟨c, t, rfl, same, matched⟩) Iff.rfl rfl
  rintro c t ⟨_, _, parts, -, matched⟩
  rwa [(List.cons.inj parts).2]

theorem Right.one (right : Right tchar ts t result) : Right tchar (.one :: ts) (c :: t) result := by
  refine right.cons ?_ (by simp [Matches]) (fun matched => ⟨c, t, rfl, matched⟩) Iff.rfl rfl
  rintro c t ⟨_, _, parts, matched⟩
  rwa [(List.cons.inj parts).2]

/-- `%%` is the same as `%`. -/
theorem Right.percents (right : Right tchar (.any :: ts) t result) (k : Nat) :
    Right tchar (.any :: (replicate k .any ++ ts)) t result := by
  induction k with
  | zero => exact right
  | succ k ih =>
    exact ⟨fun yes => ⟨matches_any_any.mpr (ih.sound yes).1, (ih.sound yes).2⟩,
      fun sound matched => ih.complete sound (matches_any_any.mp matched),
      fun sound yes u suffix matched => ih.abort sound yes u suffix (matches_any_any.mp matched)⟩

/-- A scan ends at a match, or has found none and no reason to go on behind a text that is too short. -/
theorem search_cases (total : ∀ u, ∃ result, f u = some result) (may : Char → Bool)
    (t : List Char) : (search may f t = some .likeTrue ∧ ∃ u, u <:+ t ∧ u ≠ [] ∧ f u = some .likeTrue) ∨
      search may f t = some .likeAbort ∧ ∀ c u, c :: u <:+ t → may c = true →
        f (c :: u) = some .likeFalse ∨ ∃ v, c :: u <:+ v ∧ f v = some .likeAbort := by
  induction t with
  | nil => exact Or.inr ⟨rfl, fun c u suffix => by simp at suffix⟩
  | cons d t ih =>
    have onward (here : ∀ c u, c :: u = d :: t → may c = true →
        f (c :: u) = some .likeFalse) (goes : search may f (d :: t) = search may f t) :
        (search may f (d :: t) = some .likeTrue ∧ ∃ u, u <:+ d :: t ∧ u ≠ [] ∧ f u = some .likeTrue) ∨
          search may f (d :: t) = some .likeAbort ∧ ∀ c u, c :: u <:+ d :: t → may c = true →
            f (c :: u) = some .likeFalse ∨ ∃ v, c :: u <:+ v ∧ f v = some .likeAbort := by
      rw [goes]
      rcases ih with ⟨yes, u, suffix, rest⟩ | ⟨no, passed⟩
      · exact Or.inl ⟨yes, u, suffix.trans (suffix_cons d t), rest⟩
      · refine Or.inr ⟨no, fun c u suffix allowed => ?_⟩
        rcases suffix_cons_iff.mp suffix with same | inside
        · exact Or.inl (here c u same allowed)
        · exact passed c u inside allowed
    by_cases allowed : may d = true
    · obtain ⟨result, found⟩ := total (d :: t)
      cases result with
      | likeTrue => exact Or.inl ⟨by rw [search, if_pos allowed, found], _, suffix_rfl, by simp, found⟩
      | likeAbort => exact Or.inr ⟨by rw [search, if_pos allowed, found], fun c u suffix _ => Or.inr ⟨_, suffix, found⟩⟩
      | likeFalse => exact onward (fun c u same _ => same ▸ found) (by rw [search, if_pos allowed, found])
    · refine onward (fun c u same yes => ?_) (by rw [search, if_neg allowed])
      rw [(List.cons.inj same).1] at yes
      exact absurd yes allowed

/-- A scan for the rest of a pattern behind a `%` and some `_`. -/
theorem right_search (may : Char → Bool) (j : Nat) (enough : j ≤ t.length)
    (right : ∀ u, ∃ result, f u = some result ∧ Right tchar ts u result)
    (allowed : ∀ c u, Matches tchar ts (c :: u) → may c = true)
    (strict : t.drop j ≠ [] → Defective (.any :: (replicate j .one ++ ts)) → ¬ Defective ts → weight ts = 0)
    (nonempty : ¬ Defective (.any :: (replicate j .one ++ ts)) → ¬ Matches tchar ts []) :
    ∃ result, search may f (t.drop j) = some result ∧
      Right tchar (.any :: (replicate j .one ++ ts)) t result := by
  have whole : Defective ts → Defective (.any :: (replicate j .one ++ ts)) :=
    fun defective => ((defective_ones j).mpr defective).cons _
  rcases search_cases (fun u => (right u).imp fun _ both => both.1) may (t.drop j) with
    ⟨yes, u, suffix, some, found⟩ | ⟨no, passed⟩
  · obtain ⟨result, own, spec⟩ := right u
    obtain ⟨matched, longer⟩ := spec.sound (Option.some.inj (own.symm.trans found))
    refine ⟨_, yes, fun _ => ⟨(matches_any_ones j t).mpr ⟨enough, u, suffix, matched⟩, fun defective => ?_⟩,
      fun _ _ => rfl, by simp⟩
    have short := suffix.length_le
    have pos := length_pos_iff.mpr some
    rw [length_drop] at short
    rw [weight, weight_ones]
    by_cases inner : Defective ts
    · have := longer inner
      omega
    · have := strict (fun none => some (suffix_nil.mp (none ▸ suffix))) defective inner
      omega
  · have none (sound : ¬ Defective (.any :: (replicate j .one ++ ts))) :
        ¬ Matches tchar (.any :: (replicate j .one ++ ts)) t := by
      intro matched
      obtain ⟨-, u, suffix, matched⟩ := (matches_any_ones j t).mp matched
      cases u with
      | nil => exact nonempty sound matched
      | cons c u =>
        rcases passed c u suffix (allowed c u matched) with fails | ⟨v, inside, stops⟩
        · obtain ⟨result, own, spec⟩ := right (c :: u)
          rw [spec.complete (mt whole sound) matched] at own
          cases own.symm.trans fails
        · obtain ⟨result, own, spec⟩ := right v
          exact spec.abort (mt whole sound) (Option.some.inj (own.symm.trans stops)) _ inside matched
    refine ⟨_, no, by simp, fun sound matched => absurd matched (none sound), fun sound _ u suffix matched => ?_⟩
    obtain ⟨v, inside, matched⟩ := matched
    exact none sound ⟨v, inside.trans suffix, matched⟩

/-- How a pattern begins. -/
theorem tokens_cases (parsed : tokens (some '\\') (c :: p) = some ts) :
    (c = '\\' ∧ ∃ d q ts', p = d :: q ∧ tokens (some '\\') q = some ts' ∧ ts = .lit d :: ts') ∨
      c ≠ '\\' ∧ ∃ ts', tokens (some '\\') p = some ts' ∧ ts = plainToken c :: ts' := by
  by_cases slash : c = '\\'
  · subst slash
    cases p with
    | nil => simp [tokens] at parsed
    | cons d q =>
      rw [tokens_escaped] at parsed
      obtain ⟨ts', rest, rfl⟩ := Option.map_eq_some_iff.mp parsed
      exact Or.inl ⟨rfl, d, q, ts', rfl, rest, rfl⟩
  · rw [tokens_plain fun same => slash (Option.some.inj same)] at parsed
    obtain ⟨ts', rest, rfl⟩ := Option.map_eq_some_iff.mp parsed
    exact Or.inr ⟨slash, ts', rest, rfl⟩

theorem tokens_dropWhile (parsed : tokens (some '\\') p = some ts) :
    ∃ k ts', tokens (some '\\') (p.dropWhile (· = '%')) = some ts' ∧ ts = replicate k .any ++ ts' := by
  induction p generalizing ts with
  | nil => exact ⟨0, ts, parsed, rfl⟩
  | cons c p ih =>
    by_cases percent : c = '%'
    · subst percent
      rcases tokens_cases parsed with ⟨slash, -⟩ | ⟨-, ts', rest, rfl⟩
      · cases slash
      · obtain ⟨k, left, dropped, rfl⟩ := ih rest
        exact ⟨k + 1, left, dropped, rfl⟩
    · exact ⟨0, ts, by rwa [dropWhile_cons_of_neg (by simpa using percent)], rfl⟩

theorem skipOnes_tokens (nonempty : t ≠ []) (parsed : tokens (some '\\') ('_' :: p) = some ts) :
    ∃ j ts', 0 < j ∧ j ≤ t.length ∧ ts = replicate j .one ++ ts' ∧ (skipOnes t ('_' :: p)).1 = t.drop j ∧
      tokens (some '\\') (skipOnes t ('_' :: p)).2 = some ts' ∧ (t.drop j = [] ∨ ts'.head? ≠ some .one) := by
  induction p generalizing t ts with
  | nil =>
    obtain ⟨slash, -⟩ | ⟨-, ts', rest, rfl⟩ := tokens_cases parsed
    · cases slash
    · exact ⟨1, ts', by decide, length_pos_iff.mpr nonempty, rfl, by simp [skipOnes],
        by simpa [skipOnes] using rest, Or.inr (by simp [← Option.some.inj rest])⟩
  | cons d q ih =>
    obtain ⟨slash, -⟩ | ⟨-, ts', rest, rfl⟩ := tokens_cases parsed
    · cases slash
    · have length := length_pos_iff.mpr nonempty
      rw [skipOnes]
      by_cases more : t.tail ≠ [] ∧ (d :: q).head? = some '_'
      · obtain ⟨left, under⟩ := more
        obtain rfl : d = '_' := Option.some.inj under
        obtain ⟨j, ts'', pos, enough, rfl, text, pattern, ends⟩ := ih left rest
        rw [if_pos ⟨left, under⟩]
        rw [length_tail] at enough
        rw [drop_tail] at text ends
        exact ⟨j + 1, ts'', by omega, by omega, rfl, text, pattern, ends⟩
      · rw [if_neg more]
        refine ⟨1, ts', by decide, length, rfl, drop_one.symm, rest, ?_⟩
        rw [drop_one]
        by_cases left : t.tail = []
        · exact Or.inl left
        · refine Or.inr fun isOne => more ⟨left, ?_⟩
          rcases tokens_cases rest with ⟨-, _, _, _, _, _, rfl⟩ | ⟨-, _, _, rfl⟩
          · simp at isOne
          · by_contra other
            rw [head?_cons, plainToken, if_neg fun under => other (congrArg some under)] at isOne
            split at isOne <;> cases isOne

theorem right_empty (parsed : tokens (some '\\') p = some ts) :
    Right tchar ts [] (if p.dropWhile (· = '%') = [] then .likeTrue else .likeAbort) := by
  obtain ⟨k, ts', dropped, rfl⟩ := tokens_dropWhile parsed
  split
  · next none =>
    rw [none] at dropped
    have all : ∀ token ∈ replicate k Token.any ++ ts', token = .any := by
      simp [← Option.some.inj dropped]
    exact ⟨fun _ => ⟨matches_nil_of_all_any all, fun defective => absurd defective (not_defective_of_all_any all)⟩,
      fun _ _ => rfl, by simp⟩
  · next some =>
    have fails : ¬ Matches tchar (replicate k .any ++ ts') [] := by
      intro matched
      have all := all_any_of_matches_nil matched
      cases rest : p.dropWhile (· = '%') with
      | nil => exact some rest
      | cons e q =>
        have percent : e ≠ '%' := by simpa [rest] using head_dropWhile_not (fun c => decide (c = '%')) some
        rw [rest] at dropped
        rcases tokens_cases dropped with ⟨-, d, _, _, _, _, rfl⟩ | ⟨-, _, _, rfl⟩
        · cases all (.lit d) (by simp)
        · have first := all (plainToken e) (by simp)
          rw [plainToken, if_neg percent] at first
          split at first <;> cases first
    refine ⟨by simp, fun _ matched => absurd matched fails, fun _ _ u suffix matched => ?_⟩
    rw [suffix_nil.mp suffix] at matched
    exact fails matched

theorem Right.fastPath (parsed : tokens (some '\\') p = some ts)
    (right : ∃ result, matched = some result ∧ Right tchar ts t result) :
    ∃ result, fastPath p matched = some result ∧ Right tchar ts t result := by
  unfold Like.fastPath
  split
  · next everything =>
    subst everything
    obtain rfl : [Token.any] = ts := by simpa [tokens, plainToken] using parsed
    exact ⟨_, rfl, fun _ => ⟨⟨[], nil_suffix, rfl⟩, fun no => no.elim⟩, fun _ _ => rfl, by simp⟩
  · exact right

theorem Right.literal (right : ∃ result, matched = some result ∧ Right tchar ts t result) :
    ∃ result, (if tchar d ≠ tchar c then some .likeFalse else matched) = some result ∧
      Right tchar (.lit d :: ts) (c :: t) result := by
  by_cases same : tchar d = tchar c
  · obtain ⟨result, found, spec⟩ := right
    exact ⟨result, by rw [if_neg (not_not.mpr same), found], spec.lit same⟩
  · refine ⟨_, if_pos same, Right.of_false ?_⟩
    rintro ⟨_, _, parts, equal, -⟩
    exact same (equal.trans (congrArg tchar (List.cons.inj parts).1.symm))

theorem tokens_eq_nil (parsed : tokens (some '\\') p = some []) : p = [] := by
  cases p with
  | nil => rfl
  | cons c p => rcases tokens_cases parsed with ⟨-, _, _, _, _, _, no⟩ | ⟨-, _, _, no⟩ <;> cases no

/-- The search behind `%_`: the text may be used up where the rest of a sound pattern needs a character. -/
theorem right_ones (nonempty : t ≠ []) (parsed : tokens (some '\\') ('_' :: q) = some ts)
    (right : ∀ ts', tokens (some '\\') (skipOnes t ('_' :: q)).2 = some ts' → ∀ u, ∃ result,
      f u = some result ∧ Right tchar ts' u result) : ∃ result, (if (skipOnes t ('_' :: q)).2 = [] then some .likeTrue
      else search (fun _ => true) f (skipOnes t ('_' :: q)).1) = some result ∧ Right tchar (.any :: ts) t result := by
  obtain ⟨j, ts', pos, enough, rfl, text, pattern, ends⟩ := skipOnes_tokens nonempty parsed
  obtain ⟨i, rfl⟩ : ∃ i, j = i + 1 := ⟨j - 1, by omega⟩
  split
  · next ended =>
    rw [ended] at pattern
    obtain rfl := Option.some.inj pattern
    refine ⟨_, rfl, fun _ => ⟨(matches_any_ones _ t).mpr ⟨enough, [], nil_suffix, rfl⟩, fun defective => ?_⟩,
      fun _ _ => rfl, by simp⟩
    rcases defective with inner | ⟨-, last⟩
    · exact ((defective_ones i).mp inner).elim
    · simp [getLast?_replicate] at last
  · next more =>
    rw [text]
    refine right_search _ (i + 1) enough (right ts' pattern) (fun _ _ _ => rfl) (fun left defective inner => ?_)
      fun sound matched => ?_
    · rcases defective with part | ⟨wild, last⟩
      · exact absurd ((defective_ones i).mp part) inner
      · have ends' : ts'.getLast? = some .any := by
          cases own : ts'.getLast? <;> simp_all [getLast?_append, getLast?_replicate]
        exact weight_of_all_any (all_any_of_wild (fun c mem => wild c (mem_append_right _ mem)) ends'
          (ends.resolve_left left) inner)
    · have all := all_any_of_matches_nil matched
      refine sound (Or.inr ⟨fun c mem => ?_, ?_⟩)
      · rcases mem_append.mp mem with isOne | own
        · cases eq_of_mem_replicate isOne
        · cases all _ own
      · have some : ts' ≠ [] := fun none => more (tokens_eq_nil (none ▸ pattern))
        change (replicate i Token.one ++ ts').getLast? = _
        rw [getLast?_append, getLast?_eq_some_getLast some, all _ (getLast_mem some)]
        rfl

theorem matchLoop_right (tchar : Char → Char) (parsed : tokens (some '\\') p = some ts)
    (t : List Char) : ∃ result, matchLoop tchar t p = some result ∧ Right tchar ts t result := by
  induction size : p.length using Nat.strong_induction_on generalizing p ts t with
  | _ n ih =>
    subst size
    cases t with
    | nil => exact ⟨_, by rw [matchLoop], right_empty parsed⟩
    | cons c t =>
      cases p with
      | nil =>
        rw [← Option.some.inj parsed]
        exact ⟨_, by rw [matchLoop], Right.of_false (by simp [Matches])⟩
      | cons d p =>
        rw [matchLoop.eq_def]
        dsimp only
        rcases tokens_cases parsed with ⟨rfl, e, q, ts', rfl, rest, rfl⟩ | ⟨slash, ts', rest, rfl⟩
        · rw [if_pos rfl]
          exact Right.literal (ih _ (by simp) rest t rfl)
        · rw [if_neg slash]
          by_cases percent : d = '%'
          · subst percent
            rw [if_pos rfl]
            obtain ⟨k, ts1, dropped, rfl⟩ := tokens_dropWhile rest
            have merged (result : Result) (right : Right tchar (.any :: ts1) (c :: t) result) := right.percents k
            split
            · next none =>
              rw [none] at dropped
              obtain rfl := Option.some.inj dropped
              exact ⟨_, rfl, merged _ ⟨fun _ => ⟨⟨[], nil_suffix, rfl⟩, fun no => no.elim⟩, fun _ _ => rfl, by simp⟩⟩
            · next e q found =>
              have percent : e ≠ '%' := by
                simpa [found] using head_dropWhile_not (fun c => decide (c = '%')) (l := p) (by simp [found])
              have shorter := (dropWhile_suffix (fun c => decide (c = '%')) (l := p)).length_le
              rw [found, length_cons] at shorter
              rw [found] at dropped
              by_cases under : e = '_'
              · subst under
                rw [if_pos rfl]
                have skipped := skipOnes_length (c :: t) '_' q
                obtain ⟨result, same, right⟩ := right_ones (cons_ne_nil c t) dropped fun ts' pattern u =>
                  Right.fastPath pattern (ih _ (by rw [length_cons]; omega) pattern u rfl)
                exact ⟨result, same, merged result right⟩
              · have lone : ¬ (e = '\\' ∧ q = []) := by
                  rintro ⟨rfl, rfl⟩
                  simp [tokens] at dropped
                rw [if_neg under, if_neg lone]
                have first : ∃ d ts2, ts1 = .lit d :: ts2 ∧ (if e = '\\' then q.headD e else e) = d := by
                  rcases tokens_cases dropped with ⟨rfl, d, _, ts2, rfl, _, rfl⟩ | ⟨slash, ts2, _, rfl⟩
                  · exact ⟨d, ts2, rfl, by simp⟩
                  · exact ⟨e, ts2, by rw [plainToken, if_neg percent, if_neg under], if_neg slash⟩
                obtain ⟨d, ts2, rfl, firstpat⟩ := first
                rw [firstpat]
                obtain ⟨result, same, right⟩ := right_search (fun c => tchar c = tchar d) 0 (Nat.zero_le _)
                  (t := c :: t)
                  (fun u => Right.fastPath dropped (ih _ (by rw [length_cons, length_cons]; omega) dropped u rfl))
                  (by
                    rintro c u ⟨_, _, parts, equal, -⟩
                    exact decide_eq_true ((congrArg tchar (List.cons.inj parts).1).trans equal.symm))
                  (fun _ defective sound => absurd defective sound) (fun _ => by simp [Matches])
                exact ⟨result, same, merged result right⟩
          · rw [if_neg percent]
            by_cases under : d = '_'
            · subst under
              obtain ⟨result, found, right⟩ := ih _ (Nat.lt_succ_self _) rest t rfl
              exact ⟨result, by rw [if_pos rfl, found], right.one⟩
            · rw [if_neg under, plainToken, if_neg percent, if_neg under]
              exact Right.literal (ih _ (Nat.lt_succ_self _) rest t rfl)

end Matching

/-- `MatchText` is exact for the patterns that have no `%_` followed by wildcards only, up to a last `%`;
on such a one it misses the shortest text. -/
theorem matchText_exact_iff (tchar : Char → Char) {pattern : List Char} {ts : List Token}
    (parsed : tokens (some '\\') pattern = some ts) :
    (∀ text, ∃ result, matchText tchar text pattern = some result ∧ (result = .likeTrue ↔ Matches tchar ts text) ∧
      (result = .likeAbort → ∀ suffix, suffix <:+ text → ¬ Matches tchar ts suffix)) ↔ ¬ Defective ts := by
  have right (text : List Char) : ∃ result, matchText tchar text pattern = some result ∧ Right tchar ts text result :=
    Right.fastPath parsed (matchLoop_right tchar parsed text)
  constructor
  · intro exact defective
    obtain ⟨text, matched, length⟩ := exists_least_text tchar ts
    obtain ⟨result, found, spec⟩ := right text
    obtain ⟨result', found', iff, -⟩ := exact text
    obtain rfl := Option.some.inj (found.symm.trans found')
    have longer := (spec.sound (iff.mpr matched)).2 defective
    omega
  · intro sound text
    obtain ⟨result, found, spec⟩ := right text
    exact ⟨result, found, ⟨fun yes => (spec.sound yes).1, spec.complete sound⟩, spec.abort sound⟩

theorem matchText_exact_percent : tokens (some '\\') ['%', '_', 'b'] = some [.any, .one, .lit 'b'] ∧
    ∀ text, ∃ result, matchText id text ['%', '_', 'b'] = some result ∧
      (result = .likeTrue ↔ Matches id [.any, .one, .lit 'b'] text) ∧
      (result = .likeAbort → ∀ suffix, suffix <:+ text → ¬ Matches id [.any, .one, .lit 'b'] suffix) :=
  have parsed : tokens (some '\\') ['%', '_', 'b'] = some [.any, .one, .lit 'b'] := by simp [tokens, plainToken]
  ⟨parsed, (matchText_exact_iff id parsed).mpr (by simp [Defective])⟩

/-- `'a' LIKE '%_%'` is answered with no. -/
theorem matchText_percent_one_percent :
    Denotes id (some '\\') ['%', '_', '%'] ['a'] ∧ matchText id ['a'] ['%', '_', '%'] = some .likeAbort := by
  refine ⟨⟨[.any, .one, .any], by simp [tokens, plainToken], ['a'], suffix_rfl, 'a', [], rfl, [], suffix_rfl,
    rfl⟩, ?_⟩
  rw [matchText, fastPath, if_neg (by simp), matchLoop.eq_def]
  dsimp only
  rw [if_neg (by simp), if_pos rfl]
  split
  · next none => simp at none
  · next e q found =>
    obtain ⟨rfl, rfl⟩ : e = '_' ∧ q = ['%'] := by simpa [eq_comm] using found
    simp [skipOnes, search]

end BlockchainPG.Utils.Like
