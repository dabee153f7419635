import MachFormal.Libcs.Expand

/-!
# The language of file specifications

A specification is read as characters and classes.  Its braces stand for their alternatives,
and what remains is matched with a path component by component.  `expand` finds a path only if
the specification can be read along it in a particular way: a star that more of its component
follows leaves a character of the name, and no reading of a name that is tried before takes
the whole name with the whole specification.
-/

namespace MachFormal.Libcs.Wildcards

open Expand

/-- A character that a name can have. -/
def Plain (c : Byte) : Prop := 0 < c.toNat ∧ c.toNat < 128

instance : DecidablePred Plain := fun c =>
  inferInstanceAs (Decidable (0 < c.toNat ∧ c.toNat < 128))

/-- What a class lists: one character, or the characters of a range. -/
inductive Listed where
  | one (c : Byte)
  | range (low high : Byte)
  deriving DecidableEq

namespace Listed

def text : Listed → Text
  | one c => [c]
  | range low high => [low, dash, high]

def has (c : Byte) : Listed → Bool
  | one d => c = d
  | range low high => low.toNat ≤ c.toNat && c.toNat ≤ high.toNat

/-- Ranges ascend, and brackets and dashes stand for themselves nowhere but at the end of a
range. -/
def Proper : Listed → Prop
  | one c => Plain c ∧ c ≠ closing ∧ c ≠ dash
  | range low high =>
      Plain low ∧ Plain high ∧ low.toNat ≤ high.toNat ∧ low ≠ closing ∧ low ≠ dash ∧
        high ≠ closing

instance : DecidablePred Proper
  | one c => inferInstanceAs (Decidable (Plain c ∧ c ≠ closing ∧ c ≠ dash))
  | range low high => inferInstanceAs (Decidable (Plain low ∧ Plain high ∧
      low.toNat ≤ high.toNat ∧ low ≠ closing ∧ low ≠ dash ∧ high ≠ closing))

end Listed

/-- A character or a class. -/
inductive Token where
  | byte (c : Byte)
  | set (l : List Listed)
  deriving DecidableEq

namespace Token

def text : Token → Text
  | byte c => [c]
  | set l => opening :: l.flatMap Listed.text ++ [closing]

def Proper : Token → Prop
  | byte c => Plain c ∧ c ≠ opening ∧ c ≠ tilde
  | set l => ∀ x ∈ l, x.Proper

instance : DecidablePred Proper
  | byte c => inferInstanceAs (Decidable (Plain c ∧ c ≠ opening ∧ c ≠ tilde))
  | set l => inferInstanceAs (Decidable (∀ x ∈ l, x.Proper))

/-- No operator and no brace. -/
def literal : Token → Bool
  | byte c => !globchars.contains c
  | set _ => false

/-- An operator that is matched with characters of a name. -/
def wild : Token → Prop
  | byte c => c = star ∨ c = query
  | set _ => True

end Token

open Token

def text (ts : List Token) : Text := ts.flatMap Token.text

/-- A specification whose brackets are closed, without a tilde. -/
def Orderly (ts : List Token) : Prop := ∀ t ∈ ts, t.Proper

instance : DecidablePred Orderly := fun ts => inferInstanceAs (Decidable (∀ t ∈ ts, t.Proper))

/-! ## Braces -/

/-- The level of nesting behind a token. -/
def level (lev : Nat) (t : Token) : Nat :=
  if t = byte brace then lev + 1 else if t = byte unbrace then lev - 1 else lev

/-- What stands in a brace, and what follows it. -/
def enclosed : Nat → List Token → Option (List Token × List Token)
  | _, [] => none
  | lev, t :: r =>
      if t = byte unbrace ∧ lev = 0 then some ([], r)
      else (enclosed (level lev t) r).map fun g => (t :: g.1, g.2)

/-- What stands between the commas of a brace. -/
def alternatives : Nat → List Token → List Token → List (List Token)
  | _, cur, [] => [cur]
  | lev, cur, t :: r =>
      if t = byte comma ∧ lev = 0 then cur :: alternatives lev [] r
      else alternatives (level lev t) (cur ++ [t]) r

/-- An alternative is chosen for each brace. -/
inductive Expands : List Token → List Token → Prop where
  | nil : Expands [] []
  | keep {t : Token} {r e : List Token} (other : t ≠ byte brace) (rest : Expands r e) :
      Expands (t :: r) (t :: e)
  | choose {r inside after alt e : List Token} (group : enclosed 0 r = some (inside, after))
      (listed : alt ∈ alternatives 0 [] inside) (rest : Expands (alt ++ after) e) :
      Expands (byte brace :: r) e

/-! ## Paths -/

/-- The names that a component without braces matches. -/
inductive Fits : List Token → Text → Prop where
  | nil : Fits [] []
  | char {c : Byte} {r : List Token} {n : Text} (other : c ≠ star ∧ c ≠ query)
      (rest : Fits r n) : Fits (byte c :: r) (c :: n)
  | any {c : Byte} {r : List Token} {n : Text} (rest : Fits r n) :
      Fits (byte query :: r) (c :: n)
  | set {c : Byte} {l : List Listed} {r : List Token} {n : Text}
      (listed : l.any (Listed.has c) = true) (rest : Fits r n) : Fits (set l :: r) (c :: n)
  | star {r : List Token} {n : Text} (front : Text) (rest : Fits r n) :
      Fits (byte star :: r) (front ++ n)

/-- A component of a specification and one of a path.  Operators are matched with the name of a
file, and a name that begins with a dot needs a component that does. -/
structure Component (c : List Token) (n : Text) : Prop where
  flat : byte slash ∉ c
  simple : slash ∉ n
  fits : Fits c n
  named : (∃ t ∈ c, t.wild) → n ≠ [] ∧ (n.head? = some dot → c.head? = some (byte dot))

/-- A specification without braces and a path. -/
inductive Spells : List Token → Text → Prop where
  | last {c : List Token} {n : Text} (component : Component c n) : Spells c n
  | more {c r : List Token} {n t : Text} (component : Component c n) (rest : Spells r t) :
      Spells (c ++ byte slash :: r) (n ++ slash :: t)

/-- The paths that match a specification. -/
def Matches (spec : List Token) (path : Text) : Prop :=
  ∃ plain, Expands spec plain ∧ Spells plain path

/-! ## Readings -/

theorem enclosed_eq {lev : Nat} {r inside after : List Token}
    (group : enclosed lev r = some (inside, after)) : r = inside ++ byte unbrace :: after := by
  induction r generalizing lev inside with
  | nil => cases group
  | cons t r ih =>
      rw [enclosed] at group
      split at group
      · next ends =>
          cases group
          rw [ends.1, List.nil_append]
      · obtain ⟨⟨i, a⟩, more, pair⟩ := Option.map_eq_some_iff.mp group
        cases pair
        exact congrArg (t :: ·) (ih more)

/-- An alternative leaves out the commas and the other alternatives. -/
theorem alternative_sublist {lev : Nat} {cur inside alt : List Token}
    (listed : alt ∈ alternatives lev cur inside) : alt.Sublist (cur ++ inside) := by
  induction inside generalizing lev cur with
  | nil =>
      rw [alternatives, List.mem_singleton] at listed
      rw [listed, List.append_nil]
  | cons t r ih =>
      rw [alternatives] at listed
      split at listed
      · rcases List.mem_cons.mp listed with rfl | more
        · exact List.sublist_append_left ..
        · exact (ih more).trans ((List.sublist_cons_self t r).trans
            (List.sublist_append_right ..))
      · have rest := ih listed
        rwa [List.append_assoc, List.singleton_append] at rest

/-- What a brace is replaced by is part of what follows it. -/
theorem chosen_sublist {r inside after alt : List Token}
    (group : enclosed 0 r = some (inside, after)) (listed : alt ∈ alternatives 0 [] inside) :
    (alt ++ after).Sublist r := by
  rw [enclosed_eq group]
  exact (alternative_sublist listed).append (List.sublist_cons_self _ _)

theorem length_chosen {r inside after alt : List Token}
    (group : enclosed 0 r = some (inside, after)) (listed : alt ∈ alternatives 0 [] inside) :
    (alt ++ after).length ≤ r.length :=
  (chosen_sublist group listed).length_le

/-- What can be left of a name behind a star, at least one character. -/
def tails : Text → List Text
  | [] => []
  | c :: s => (c :: s) :: tails s

/-- The ways to read a component along a name, the shortest text for a star and the first
alternative before the others: what of the specification follows the slash that ends the
component, or nothing when the specification ends. -/
def ways (s : Text) : List Token → List (Option (List Token))
  | [] => if s = [] then [none] else []
  | .set l :: r =>
      match s with
      | [] => []
      | c :: s => if l.any (Listed.has c) then ways s r else []
  | .byte k :: r =>
      if k = brace then
        match h : enclosed 0 r with
        | none => []
        | some (inside, after) =>
            (alternatives 0 [] inside).attach.flatMap fun alt =>
              have := length_chosen h alt.2
              ways s (alt.1 ++ after)
      else if k = star then
        if r = [] then [none]
        else if r.head? = some (byte slash) then [some r.tail]
        else (tails s).flatMap fun s => ways s r
      else if k = slash then if s = [] then [some r] else []
      else
        match s with
        | [] => []
        | c :: s => if k = query ∨ c = k then ways s r else []
termination_by ts => ts.length
decreasing_by
  all_goals
    simp only [List.length_cons]
    omega

/-- The text before the first operator, its part up to the last slash, the part behind it, and
what begins with the operator. -/
def lead (ts : List Token) : List Token := ts.takeWhile Token.literal
def upper (ts : List Token) : List Token := (lead ts).rdropWhile (· ≠ byte slash)
def component (ts : List Token) : List Token := (lead ts).rtakeWhile (· ≠ byte slash)
def operators (ts : List Token) : List Token := ts.dropWhile Token.literal

/-- A text fits in the buffer of the path. -/
def Short (path : Text) : Prop := path.length ≤ MAXPATHLEN - 2

/-- The paths below a directory along which a specification can be read. -/
inductive Readable : Text → List Token → Text → Prop where
  | plain {dir : Text} {ts : List Token} (ends : operators ts = [])
      (short : Short (dir ++ text ts)) : Readable dir ts (text ts)
  | choose {dir t : Text} {ts r inside after alt : List Token}
      (here : operators ts = byte brace :: r) (short : Short (dir ++ text (lead ts)))
      (group : enclosed 0 r = some (inside, after)) (listed : alt ∈ alternatives 0 [] inside)
      (rest : Readable (dir ++ text (upper ts)) (component ts ++ (alt ++ after)) t) :
      Readable dir ts (text (upper ts) ++ t)
  | last {dir n : Text} {ts r : List Token} {m : Token} (here : operators ts = m :: r)
      (other : m ≠ byte brace) (short : Short (dir ++ text (lead ts)))
      (filled : n ≠ []) (simple : slash ∉ n)
      (dotted : n.head? = some dot → (component ts ++ m :: r).head? = some (byte dot))
      (way : none ∈ ways n (component ts ++ m :: r)) :
      Readable dir ts (text (upper ts) ++ n)
  | inner {dir n t : Text} {ts r r' : List Token} {m : Token} (here : operators ts = m :: r)
      (other : m ≠ byte brace) (short : Short (dir ++ text (lead ts)))
      (filled : n ≠ []) (simple : slash ∉ n)
      (dotted : n.head? = some dot → (component ts ++ m :: r).head? = some (byte dot))
      (way : some r' ∈ (ways n (component ts ++ m :: r)).takeWhile Option.isSome)
      (deeper : Short (dir ++ text (upper ts) ++ n ++ [slash]))
      (rest : Readable (dir ++ text (upper ts) ++ n ++ [slash]) r' t) :
      Readable dir ts (text (upper ts) ++ (n ++ slash :: t))

/-! ## The ways -/

theorem mem_tails {s s' : Text} (tail : s' ∈ tails s) : ∃ front, s = front ++ s' := by
  induction s with
  | nil => cases tail
  | cons c s ih =>
      rcases List.mem_cons.mp tail with rfl | later
      · exact ⟨[], rfl⟩
      · obtain ⟨front, rfl⟩ := ih later
        exact ⟨c :: front, rfl⟩

theorem ways_set (s : Text) (l : List Listed) (r : List Token) :
    ways s (.set l :: r) =
      match s with
      | [] => []
      | c :: s => if l.any (Listed.has c) then ways s r else [] := by
  rw [ways.eq_def]

theorem ways_byte {k : Byte} (other : k ≠ brace) (s : Text) (r : List Token) :
    ways s (.byte k :: r) =
      if k = star then
        if r = [] then [none]
        else if r.head? = some (byte slash) then [some r.tail]
        else (tails s).flatMap fun s => ways s r
      else if k = slash then if s = [] then [some r] else []
      else
        match s with
        | [] => []
        | c :: s => if k = query ∨ c = k then ways s r else [] := by
  rw [ways.eq_def]
  exact if_neg other

theorem ways_brace {s : Text} {r inside after : List Token}
    (group : enclosed 0 r = some (inside, after)) :
    ways s (byte brace :: r) =
      (alternatives 0 [] inside).flatMap fun alt => ways s (alt ++ after) := by
  rw [ways.eq_def]
  dsimp only
  rw [if_pos rfl]
  split
  · next none => rw [group] at none; cases none
  · next i a found =>
      rw [group] at found
      cases found
      exact List.flatMap_subtype (fun _ _ => rfl) |>.trans (by rw [List.unattach_attach])

theorem ways_unbalanced {s : Text} {r : List Token} (group : enclosed 0 r = none) :
    ways s (byte brace :: r) = [] := by
  rw [ways.eq_def]
  dsimp only
  rw [if_pos rfl]
  split
  · rfl
  · next i a found => rw [group] at found; cases found

/-- One way to read a component along a name. -/
inductive Way : Text → List Token → Option (List Token) → Prop where
  | ends : Way [] [] none
  | set {c : Byte} {n : Text} {l : List Listed} {r : List Token} {o : Option (List Token)}
      (listed : l.any (Listed.has c) = true) (rest : Way n r o) : Way (c :: n) (set l :: r) o
  | choose {n : Text} {r inside after alt : List Token} {o : Option (List Token)}
      (group : enclosed 0 r = some (inside, after)) (listed : alt ∈ alternatives 0 [] inside)
      (rest : Way n (alt ++ after) o) : Way n (byte brace :: r) o
  | whole (n : Text) : Way n [byte Expand.star] none
  | slashed (n : Text) (r : List Token) :
      Way n (byte Expand.star :: byte slash :: r) (some r)
  | star {n : Text} {r : List Token} {o : Option (List Token)} (front : Text)
      (rest : Way n r o) : Way (front ++ n) (byte Expand.star :: r) o
  | down (r : List Token) : Way [] (byte slash :: r) (some r)
  | any {c : Byte} {n : Text} {r : List Token} {o : Option (List Token)} (rest : Way n r o) :
      Way (c :: n) (byte query :: r) o
  | char {c : Byte} {n : Text} {r : List Token} {o : Option (List Token)}
      (noBrace : c ≠ brace) (noStar : c ≠ Expand.star) (noQuery : c ≠ query)
      (noSlash : c ≠ slash) (rest : Way n r o) : Way (c :: n) (byte c :: r) o

theorem Way.of_mem {n : Text} {w : List Token} {o : Option (List Token)} (way : o ∈ ways n w) :
    Way n w o := by
  induction size : w.length using Nat.strong_induction_on generalizing n w with
  | _ k ih =>
      subst size
      cases w with
      | nil =>
          rw [ways] at way
          split at way
          · next empty =>
              cases List.mem_singleton.mp way
              exact empty ▸ .ends
          · cases way
      | cons t r =>
          have shorter : r.length < (t :: r).length := Nat.lt_succ_self _
          cases t with
          | set l =>
              rw [ways_set] at way
              cases n with
              | nil => cases way
              | cons c n =>
                  dsimp only at way
                  split at way
                  · next listed => exact .set listed (ih _ shorter way rfl)
                  · cases way
          | byte k =>
              by_cases isBrace : k = brace
              · subst isBrace
                cases group : enclosed 0 r with
                | none => rw [ways_unbalanced group] at way; cases way
                | some g =>
                    rw [ways_brace group] at way
                    obtain ⟨alt, listed, way⟩ := List.mem_flatMap.mp way
                    have chosen := length_chosen group listed
                    exact .choose group listed (ih _ (Nat.lt_of_le_of_lt chosen shorter) way rfl)
              · rw [ways_byte isBrace] at way
                by_cases isStar : k = Expand.star
                · subst isStar
                  rw [if_pos rfl] at way
                  split at way
                  · next ends =>
                      subst ends
                      cases List.mem_singleton.mp way
                      exact .whole n
                  · split at way
                    · next ends =>
                        obtain ⟨r', rfl⟩ : ∃ r', r = byte slash :: r' :=
                          List.head?_eq_some_iff.mp ends
                        cases List.mem_singleton.mp way
                        exact .slashed n r'
                    · obtain ⟨n', tail, later⟩ := List.mem_flatMap.mp way
                      obtain ⟨front, rfl⟩ := mem_tails tail
                      exact .star front (ih _ shorter later rfl)
                · rw [if_neg isStar] at way
                  by_cases isSlash : k = slash
                  · subst isSlash
                    rw [if_pos rfl] at way
                    split at way
                    · next empty =>
                        subst empty
                        cases List.mem_singleton.mp way
                        exact .down r
                    · cases way
                  · rw [if_neg isSlash] at way
                    cases n with
                    | nil => cases way
                    | cons c n =>
                        dsimp only at way
                        split at way
                        · next same =>
                            have rest := ih _ shorter way rfl
                            by_cases isQuery : k = query
                            · subst isQuery
                              exact .any rest
                            · obtain rfl : c = k := same.resolve_left isQuery
                              exact .char isBrace isStar isQuery isSlash rest
                        · cases way

/-- What follows the slash that ends a component is part of the specification. -/
theorem Way.sublist {n : Text} {w : List Token} {o : Option (List Token)} (way : Way n w o) :
    ∀ r, o = some r → (byte slash :: r).Sublist w := by
  induction way with
  | ends => intro r none; cases none
  | set listed rest ih => exact fun r more => (ih r more).trans (List.sublist_cons_self _ _)
  | choose group listed rest ih =>
      exact fun r more =>
        ((ih r more).trans (chosen_sublist group listed)).trans (List.sublist_cons_self _ _)
  | whole n => intro r none; cases none
  | slashed n r =>
      intro r' more
      cases more
      exact List.sublist_cons_self _ _
  | star front rest ih => exact fun r more => (ih r more).trans (List.sublist_cons_self _ _)
  | down r =>
      intro r' more
      cases more
      exact List.Sublist.refl _
  | any rest ih => exact fun r more => (ih r more).trans (List.sublist_cons_self _ _)
  | char noBrace noStar noQuery noSlash rest ih =>
      exact fun r more => (ih r more).trans (List.sublist_cons_self _ _)

/-- What a way says about the name and the component. -/
def Reads (w : List Token) (n : Text) : Option (List Token) → Prop
  | none => ∃ e, Expands w e ∧ byte slash ∉ e ∧ Fits e n
  | some r => ∀ e, Expands r e →
      ∃ c, Expands w (c ++ byte slash :: e) ∧ byte slash ∉ c ∧ Fits c n

theorem Reads.cons {w : List Token} {n n' : Text} {o : Option (List Token)} {t : Token}
    (other : t ≠ byte brace) (flat : t ≠ byte slash) (fits : ∀ {c}, Fits c n' → Fits (t :: c) n)
    (reads : Reads w n' o) : Reads (t :: w) n o := by
  cases o with
  | none =>
      obtain ⟨e, expands, apart, fit⟩ := reads
      refine ⟨t :: e, .keep other expands, ?_, fits fit⟩
      rintro (_ | ⟨_, inside⟩)
      · exact flat rfl
      · exact apart inside
  | some r =>
      intro e expands
      obtain ⟨c, expands, apart, fit⟩ := reads e expands
      refine ⟨t :: c, .keep other expands, ?_, fits fit⟩
      rintro (_ | ⟨_, inside⟩)
      · exact flat rfl
      · exact apart inside

theorem Reads.choose {r inside after alt : List Token} {n : Text} {o : Option (List Token)}
    (group : enclosed 0 r = some (inside, after)) (listed : alt ∈ alternatives 0 [] inside)
    (reads : Reads (alt ++ after) n o) : Reads (byte brace :: r) n o := by
  cases o with
  | none =>
      obtain ⟨e, expands, rest⟩ := reads
      exact ⟨e, .choose group listed expands, rest⟩
  | some r =>
      intro e expands
      obtain ⟨c, expands, rest⟩ := reads e expands
      exact ⟨c, .choose group listed expands, rest⟩

theorem fits_star (n : Text) : Fits [byte Expand.star] n := by
  have fit := Fits.star n .nil
  rwa [List.append_nil] at fit

theorem Way.reads {n : Text} {w : List Token} {o : Option (List Token)} (way : Way n w o) :
    Reads w n o := by
  induction way with
  | ends => exact ⟨[], .nil, List.not_mem_nil, .nil⟩
  | set listed rest ih => exact ih.cons nofun nofun (Fits.set listed)
  | choose group listed rest ih => exact ih.choose group listed
  | whole n => exact ⟨[byte Expand.star], .keep (by decide) .nil, by decide, fits_star n⟩
  | slashed n r =>
      intro e expands
      exact ⟨[byte Expand.star], .keep (by decide) (.keep (by decide) expands), by decide,
        fits_star n⟩
  | star front rest ih => exact ih.cons (by decide) (by decide) (Fits.star front)
  | down r => exact fun e expands => ⟨[], .keep (by decide) expands, List.not_mem_nil, .nil⟩
  | any rest ih => exact ih.cons (by decide) (by decide) Fits.any
  | char noBrace noStar noQuery noSlash rest ih =>
      exact ih.cons (fun same => noBrace (Token.byte.inj same))
        (fun same => noSlash (Token.byte.inj same)) (Fits.char ⟨noStar, noQuery⟩)

/-! ## A reading is a match -/

theorem expands_cons {t : Token} {r e : List Token} (expands : Expands (t :: r) e)
    (other : t ≠ byte brace) : ∃ e', e = t :: e' ∧ Expands r e' := by
  cases expands with
  | keep _ rest => exact ⟨_, rfl, rest⟩
  | choose _ _ _ => exact absurd rfl other

theorem literal_ne_brace {t : Token} (literal : t.literal = true) : t ≠ byte brace := by
  rintro rfl
  cases literal

theorem Expands.prefixed {u r e : List Token} (literal : ∀ t ∈ u, t.literal = true)
    (rest : Expands r e) : Expands (u ++ r) (u ++ e) := by
  induction u with
  | nil => exact rest
  | cons t u ih =>
      obtain ⟨here, later⟩ := List.forall_mem_cons.mp literal
      exact .keep (literal_ne_brace here) (ih later)

theorem Expands.of_prefixed {u r e : List Token} (literal : ∀ t ∈ u, t.literal = true)
    (expands : Expands (u ++ r) e) : ∃ e', e = u ++ e' ∧ Expands r e' := by
  induction u generalizing e with
  | nil => exact ⟨e, rfl, expands⟩
  | cons t u ih =>
      obtain ⟨here, later⟩ := List.forall_mem_cons.mp literal
      obtain ⟨e, rfl, rest⟩ := expands_cons expands (literal_ne_brace here)
      obtain ⟨e', rfl, below⟩ := ih later rest
      exact ⟨e', rfl, below⟩

@[simp] theorem text_nil : text [] = [] := rfl

@[simp] theorem text_cons (t : Token) (ts : List Token) : text (t :: ts) = t.text ++ text ts := rfl

@[simp] theorem text_append (u v : List Token) : text (u ++ v) = text u ++ text v :=
  List.flatMap_append

theorem text_byte (c : Byte) (ts : List Token) : text (byte c :: ts) = c :: text ts := rfl

theorem literal_component {u : List Token} (literal : ∀ t ∈ u, t.literal = true)
    (flat : byte slash ∉ u) : Component u (text u) := by
  induction u with
  | nil => exact ⟨flat, List.not_mem_nil, .nil, fun ⟨_, inside, _⟩ => nomatch inside⟩
  | cons t u ih =>
      obtain ⟨here, later⟩ := List.forall_mem_cons.mp literal
      obtain ⟨apart, more⟩ := not_or.mp (mt List.mem_cons.mpr flat)
      have rest := ih later more
      cases t with
      | set l => cases here
      | byte c =>
          have tame : c ≠ Expand.star ∧ c ≠ query := by
            constructor <;> (rintro rfl; cases here)
          refine ⟨flat, ?_, .char tame rest.fits, ?_⟩
          · rw [text_byte]
            rintro (_ | ⟨_, inside⟩)
            · exact apart rfl
            · exact rest.simple inside
          · rintro ⟨t, inside, wild⟩
            have plain := literal t inside
            cases t with
            | set l => cases plain
            | byte d =>
                rcases wild with rfl | rfl
                · cases plain
                · cases plain

/-- Literal text up to a slash spells itself. -/
theorem Spells.prefixed {v r : List Token} {t : Text} (literal : ∀ x ∈ v, x.literal = true)
    (rest : Spells r t) : Spells (v ++ byte slash :: r) (text v ++ slash :: t) := by
  induction size : v.length using Nat.strong_induction_on generalizing v with
  | _ k ih =>
      subst size
      by_cases inside : byte slash ∈ v
      · obtain ⟨first, more, rfl, flat⟩ := List.eq_append_cons_of_mem inside
        rw [List.forall_mem_append] at literal
        have later := (List.forall_mem_cons.mp literal.2).2
        have spelled := ih more.length
          (by simp only [List.length_append, List.length_cons]; omega) later rfl
        rw [List.append_assoc, List.cons_append, text_append, text_byte, List.append_assoc,
          List.cons_append]
        exact .more (literal_component literal.1 flat) spelled
      · exact .more (literal_component literal inside) rest

theorem spells_literal {u : List Token} (literal : ∀ x ∈ u, x.literal = true) :
    Spells u (text u) := by
  induction size : u.length using Nat.strong_induction_on generalizing u with
  | _ k ih =>
      subst size
      by_cases inside : byte slash ∈ u
      · obtain ⟨first, more, rfl, flat⟩ := List.eq_append_cons_of_mem inside
        rw [List.forall_mem_append] at literal
        have later := (List.forall_mem_cons.mp literal.2).2
        have spelled := ih more.length
          (by simp only [List.length_append, List.length_cons]; omega) later rfl
        rw [text_append, text_byte]
        exact .more (literal_component literal.1 flat) spelled
      · exact .last (literal_component literal inside)

theorem lead_literal (ts : List Token) : ∀ t ∈ lead ts, t.literal = true :=
  fun _ inside => List.mem_takeWhile_imp inside

theorem upper_component (ts : List Token) : upper ts ++ component ts = lead ts :=
  List.rdropWhile_append_rtakeWhile ..

theorem lead_operators (ts : List Token) : lead ts ++ operators ts = ts :=
  List.takeWhile_append_dropWhile

theorem parts (ts : List Token) : upper ts ++ (component ts ++ operators ts) = ts := by
  rw [← List.append_assoc, upper_component, lead_operators]

theorem upper_literal (ts : List Token) : ∀ t ∈ upper ts, t.literal = true :=
  fun t inside => lead_literal ts t (upper_component ts ▸ List.mem_append_left _ inside)

theorem component_literal (ts : List Token) : ∀ t ∈ component ts, t.literal = true :=
  fun t inside => lead_literal ts t (upper_component ts ▸ List.mem_append_right _ inside)

/-- The part up to the last slash ends there. -/
theorem upper_ends (ts : List Token) : upper ts = [] ∨ ∃ v, upper ts = v ++ [byte slash] := by
  by_cases empty : upper ts = []
  · exact .inl empty
  · have last : (upper ts).getLast empty = byte slash := by
      by_contra differs
      exact List.rdropWhile_last_not (· ≠ byte slash) (lead ts) empty (decide_eq_true differs)
    have whole := List.dropLast_append_getLast empty
    rw [last] at whole
    exact .inr ⟨(upper ts).dropLast, whole.symm⟩

theorem Spells.under {ts r : List Token} {t : Text} (rest : Spells r t) :
    Spells (upper ts ++ r) (text (upper ts) ++ t) := by
  have literal := upper_literal ts
  rcases upper_ends ts with empty | ⟨v, ends⟩
  · rw [empty]
    exact rest
  · rw [ends] at literal ⊢
    have spelled := rest.prefixed fun x inside => literal x (List.mem_append_left _ inside)
    rw [List.append_assoc, text_append, List.append_assoc]
    exact spelled

/-- The first token of a component that is matched stays. -/
theorem head_expands {e ts r : List Token} {m : Token}
    (other : m ≠ byte brace)
    (expands : Expands (component ts ++ m :: r) e) :
    e.head? = (component ts ++ m :: r).head? := by
  cases front : component ts with
  | nil =>
      rw [front] at expands
      obtain ⟨e, rfl, _⟩ := expands_cons expands other
      rfl
  | cons t c =>
      have literal : t.literal = true :=
        component_literal ts t (front ▸ List.mem_cons_self)
      rw [front] at expands
      obtain ⟨e, rfl, _⟩ := expands_cons expands (literal_ne_brace literal)
      rfl

/-- What can be read along a path matches it. -/
theorem Readable.matches {dir t : Text} {ts : List Token} (readable : Readable dir ts t) :
    Matches ts t := by
  induction readable with
  | @plain dir ts ends short =>
      have whole : lead ts = ts := by
        have split := lead_operators ts
        rwa [ends, List.append_nil] at split
      have literal := lead_literal ts
      rw [whole] at literal
      have kept := Expands.nil.prefixed literal
      rw [List.append_nil] at kept
      exact ⟨ts, kept, spells_literal literal⟩
  | @choose dir t ts r inside after alt here short group listed rest ih =>
      obtain ⟨p, expands, spells⟩ := ih
      obtain ⟨e, rfl, later⟩ := expands.of_prefixed (component_literal ts)
      refine ⟨upper ts ++ (component ts ++ e), ?_, spells.under⟩
      have chosen := (Expands.choose group listed later).prefixed (component_literal ts)
      rw [← here] at chosen
      have whole := chosen.prefixed (upper_literal ts)
      rwa [parts] at whole
  | @last dir n ts r m here other short filled simple dotted way =>
      obtain ⟨e, expands, flat, fits⟩ := (Way.of_mem way).reads
      have first := head_expands other expands
      refine ⟨upper ts ++ e, ?_, (Spells.last ⟨flat, simple, fits, fun _ => ⟨filled, ?_⟩⟩).under⟩
      · have whole := expands.prefixed (upper_literal ts)
        rwa [← here, parts] at whole
      · rwa [first]
  | @inner dir n t ts r r' m here other short filled simple dotted way deeper rest ih =>
      obtain ⟨e, later, spells⟩ := ih
      obtain ⟨c, expands, flat, fits⟩ := (Way.of_mem (List.takeWhile_subset _ way)).reads e later
      have first := head_expands other expands
      refine ⟨upper ts ++ (c ++ byte slash :: e), ?_,
        (Spells.more ⟨flat, simple, fits, fun _ => ⟨filled, ?_⟩⟩ spells).under⟩
      · have whole := expands.prefixed (upper_literal ts)
        rwa [← here, parts] at whole
      · intro begins
        rw [dotted begins] at first
        cases c with
        | nil => cases first
        | cons t c => exact first

end MachFormal.Libcs.Wildcards
