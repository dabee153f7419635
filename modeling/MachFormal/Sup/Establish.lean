import MachFormal.Libcs.Path

/-!
# Making the directories of a name

`establishdir` makes the directory part of a name, and first the directory part of that,
until it comes to a directory that is there.  It gives up at a name whose last component
is `.`, which it takes for the root or the current directory.

A directory that has been made is empty, apart from `.` and `..`.
-/

namespace MachFormal.Sup.Establish

open Library.Paths Libcs.Path

def dots : Name := [dot, dot]

variable {σ ν : Type} {fs : FileSystem σ}

/-! ## File systems -/

/-- What the calls of a file system are about: `taken` says that a directory has an entry
of a name, and the entry need not lead anywhere. -/
structure World (fs : FileSystem σ) (ν : Type) where
  files : σ → Places Byte ν
  directory : σ → ν → Bool
  taken : σ → ν → Name → Bool
  stat_eq : ∀ name w, (fs.stat name w).isSome = ((files w).resolve slash name).isSome
  root_directory : ∀ w, directory w (files w).root
  current_directory : ∀ w, directory w (files w).current
  opens : ∀ {w x}, directory w x → (files w).opens x
  lookup_dot : ∀ {w x}, directory w x → (files w).lookup x [dot] = some x
  taken_dots : ∀ {w x}, directory w x → taken w x dots
  lookup_directory : ∀ {w x c y}, (files w).lookup x c = some y → directory w x
  lookup_taken : ∀ {w x c y}, (files w).lookup x c = some y → taken w x c

/-- A directory has been made, and nothing else is changed. -/
structure World.Made (world : World fs ν) (w w' : σ) (p : ν) (c : Name) (y : ν) : Prop where
  root : (world.files w').root = (world.files w).root
  current : (world.files w').current = (world.files w).current
  unused : ¬world.directory w y
  unnamed : ∀ x c', (world.files w).lookup x c' ≠ some y
  entry : (world.files w').lookup p c = some y
  directory : world.directory w' y
  parent : (world.files w').lookup y dots = some p
  empty : ∀ c', c' ≠ [dot] → c' ≠ dots → ¬world.taken w' y c'
  lookup : ∀ x c', x ≠ y → (x = p → c' ≠ c) →
    (world.files w').lookup x c' = (world.files w).lookup x c'
  taken : ∀ x c', x ≠ y → (x = p → c' ≠ c) → world.taken w' x c' = world.taken w x c'
  directories : ∀ x, x ≠ y → world.directory w' x = world.directory w x
  opens : ∀ x, x ≠ y → (world.files w').opens x = (world.files w).opens x

section World

variable (world : World fs ν)

/-- What a name leads to. -/
def World.place (w : σ) (name : Name) : Option ν :=
  (world.files w).walk ((world.files w).start slash name) (components slash name)

/-- `mkdir` succeeds whenever the parent is a directory and the name is free. -/
structure World.Grants : Prop where
  exist : ∀ name w, (world.place w name).isSome → fs.mkdir name w = w
  makes : ∀ name w p, world.place w (dirPart name) = some p → world.directory w p →
    ¬world.taken w p (filePart name) → ∃ y, world.Made w (fs.mkdir name w) p (filePart name) y

/-! ## The way to a directory -/

/-- Where the components of a name have led: to a place that is there, to one that is so
many levels below a place, behind the first component that is missing, or to a place that
cannot be had. -/
inductive Spot (ν : Type) where
  | found (x : ν)
  | missing (x : ν) (levels : Nat)
  | blocked
deriving DecidableEq

/-- A component that is missing can be made in a directory where its name is free. -/
def World.fresh (w : σ) (x : ν) (c : Name) : Spot ν :=
  if world.directory w x ∧ ¬world.taken w x c then .missing x 1 else .blocked

def World.next (w : σ) : Spot ν → Name → Spot ν
  | .blocked, _ => .blocked
  | .found x, c =>
      match (world.files w).lookup x c with
      | some y => .found y
      | none => world.fresh w x c
  | .missing x 0, c =>
      if c = [dot] then .blocked
      else
        match (world.files w).lookup x c with
        | some y => .missing y 0
        | none => world.fresh w x c
  | .missing x (levels + 1), c =>
      if c = [dot] then .blocked
      else if c = dots then .missing x levels
      else .missing x (levels + 2)

def World.spot (w : σ) (name : Name) : Spot ν :=
  (components slash name).foldl (world.next w) (.found ((world.files w).start slash name))

/-- Nothing is in the way of a directory. -/
def World.Open (w : σ) (name : Name) : Prop :=
  match world.spot w name with
  | .found x => name.getLast? = some slash → (world.files w).opens x
  | .missing x 0 => name.getLast? = some slash → (world.files w).opens x
  | .missing _ (_ + 1) => True
  | .blocked => False

/-! ## The directory part of a name -/

theorem World.place_parts (w : σ) (name : Name) :
    world.place w name = (world.place w (dirPart name)).bind
      ((world.files w).lookup · (filePart name)) := by
  simp only [World.place, Places.walk_eq_foldl, Places.start, apply_ite some]
  refine foldl_parts _ ?_ ?_ name
  · exact world.lookup_dot (world.root_directory w)
  · exact world.lookup_dot (world.current_directory w)

theorem World.stat_iff (w : σ) (name : Name) :
    (fs.stat name w).isSome = true ↔
      ∃ x, world.place w name = some x ∧ (name.getLast? = some slash → (world.files w).opens x) := by
  rw [world.stat_eq, Places.resolve, ← World.place]
  cases world.place w name with
  | none => simp
  | some x => by_cases last : name.getLast? = some slash <;> simp [Option.filter_some, last]

/-- What is there has a directory above it. -/
theorem stat_dirPart (world : World fs ν) {w : σ} {name : Name} (there : (fs.stat name w).isSome) :
    (fs.stat (dirPart name) w).isSome := by
  obtain ⟨x, place, -⟩ := (world.stat_iff w name).mp there
  rw [world.place_parts, Option.bind_eq_some_iff] at place
  obtain ⟨p, upper, entry⟩ := place
  exact (world.stat_iff w _).mpr ⟨p, upper, fun _ => world.opens (world.lookup_directory entry)⟩

theorem World.spot_parts (w : σ) (name : Name) :
    world.spot w name = world.next w (world.spot w (dirPart name)) (filePart name) := by
  simp only [World.spot, Places.start, apply_ite Spot.found]
  refine foldl_parts _ ?_ ?_ name
  · rw [World.next, world.lookup_dot (world.root_directory w)]
  · rw [World.next, world.lookup_dot (world.current_directory w)]

end World

/-- How deep `estabd` goes. -/
def depth (name : Name) : Nat := if filePart name = [dot] then 0 else name.length

theorem depth_dirPart {name : Name} (goes : filePart name ≠ [dot]) :
    depth (dirPart name) < depth name := by
  have splits := parts_splits name
  obtain ⟨n, whole⟩ := trimmed_append name
  have within : (trimmed name).length ≤ name.length := by
    have length := congrArg List.length whole
    rw [List.length_append] at length
    omega
  rw [depth, depth, if_neg goes]
  generalize dirPart name = direc at splits
  generalize filePart name = file at splits goes
  generalize trimmed name = t at splits within
  cases splits with
  | empty => exact absurd rfl goes
  | root => exact absurd rfl goes
  | plain filled simple =>
      rw [if_pos (by decide)]
      exact Nat.lt_of_lt_of_le (List.length_pos_iff.mpr filled) within
  | top filled simple =>
      rw [if_pos (by decide)]
      exact Nat.lt_of_lt_of_le (Nat.succ_pos _) within
  | inner nested filled simple =>
      rw [List.length_append, List.length_cons] at within
      split <;> omega

theorem depth_lt (name : Name) : depth name < name.length + 1 := by
  rw [depth]
  split <;> omega

/-! ## Runs -/

/-- The directory part of a name, the directory part of that, and so on. -/
inductive Ancestor : Name → Name → Prop where
  | parent (name : Name) : Ancestor name (dirPart name)
  | above {name upper : Name} (later : Ancestor (dirPart name) upper) : Ancestor name upper

/-- The calls of `mkdir` in turn. -/
def made (fs : FileSystem σ) (names : List Name) (w : σ) : σ :=
  names.foldl (fun w name => fs.mkdir name w) w

/-- `estabd` changes the file system by `mkdir` alone, for the name and its ancestors. -/
theorem estabd_made (fuel : Nat) (d : Name) (w : σ) :
    ∃ names, (estabd fs fuel d w).2 = made fs names w ∧ ∀ m ∈ names, m = d ∨ Ancestor d m := by
  induction fuel generalizing d with
  | zero => exact ⟨[], rfl, fun _ inside => by cases inside⟩
  | succ fuel ih =>
      obtain ⟨names, result, above⟩ := ih (dirPart d)
      have later : ∀ m ∈ names, m = d ∨ Ancestor d m := fun m inside => by
        rcases above m inside with rfl | upper
        · exact .inr (.parent d)
        · exact .inr (.above upper)
      rw [estabd]
      split
      · exact ⟨[], rfl, fun _ inside => by cases inside⟩
      · split
        · exact ⟨[], rfl, fun _ inside => by cases inside⟩
        · split
          next w' ran =>
            rw [ran] at result
            exact ⟨names, result, later⟩
          next w' ran =>
            rw [ran] at result
            refine ⟨names ++ [d], ?_, fun m inside => ?_⟩
            · have whole : made fs (names ++ [d]) w = fs.mkdir d (made fs names w) := by
                rw [made, List.foldl_append]
                rfl
              rw [whole, ← result]
            · rcases List.mem_append.mp inside with old | new
              · exact later m old
              · exact .inl (List.mem_singleton.mp new)

/-- The recursion ends: more depth changes nothing. -/
theorem estabd_depth {fuel : Nat} {d : Name} (w : σ) (enough : depth d < fuel) (more : Nat) :
    estabd fs (fuel + more) d w = estabd fs fuel d w := by
  induction fuel generalizing d with
  | zero => exact absurd enough (Nat.not_lt_zero _)
  | succ fuel ih =>
      rw [Nat.add_right_comm, estabd, estabd]
      split
      · rfl
      · split
        next => rfl
        next goes =>
          rw [ih (Nat.lt_of_lt_of_le (depth_dirPart goes) (Nat.le_of_lt_succ enough))]

/-- `estabd` says whether the directory is there in the end. -/
theorem estabd_iff (world : World fs ν) {fuel : Nat} {d : Name} (w : σ) (enough : depth d < fuel) :
    (estabd fs fuel d w).1 = true ↔ (fs.stat d (estabd fs fuel d w).2).isNone := by
  induction fuel generalizing d with
  | zero => exact absurd enough (Nat.not_lt_zero _)
  | succ fuel ih =>
      rw [estabd]
      split
      next there => simpa [Option.isSome_iff_ne_none] using there
      next absent =>
        split
        next => simpa using absent
        next goes =>
          have upper := ih (d := dirPart d)
            (Nat.lt_of_lt_of_le (depth_dirPart goes) (Nat.le_of_lt_succ enough))
          split
          next w' ran =>
            rw [ran] at upper
            refine ⟨fun _ => ?_, fun _ => rfl⟩
            -- without its directory part, the directory is not there either
            cases found : fs.stat d w' with
            | none => rfl
            | some st =>
                have there := stat_dirPart world (Option.isSome_iff_exists.mpr ⟨st, found⟩)
                rw [Option.isNone_iff_eq_none.mp (upper.mp rfl)] at there
                cases there
          next w' ran => exact Iff.rfl

/-! ## Making what is missing -/

section Making

variable (world : World fs ν)

/-- A directory that was not there before. -/
def World.New (w w' : σ) (x : ν) : Prop := world.directory w' x ∧ ¬world.directory w x

/-- What was there is still there, and whatever has been added is a new directory. -/
structure World.Extends (w w' : σ) : Prop where
  root : (world.files w').root = (world.files w).root
  current : (world.files w').current = (world.files w).current
  lookup : ∀ {x c y}, (world.files w).lookup x c = some y → (world.files w').lookup x c = some y
  directory : ∀ {x}, world.directory w x → world.directory w' x
  opens : ∀ {x}, (world.files w).opens x → (world.files w').opens x
  added : ∀ {x c}, c ≠ [dot] → c ≠ dots → world.directory w' x →
    (world.directory w x → ¬world.taken w x c) → ¬world.taken w' x c ∨
      ∃ y, (world.files w').lookup x c = some y ∧ world.New w w' y ∧
        (world.files w').lookup y dots = some x

/-- From a new directory, `..` leads through new directories to an old one. -/
def World.Below (w w' : σ) : ν → Nat → ν → Prop
  | x, 0, p => x = p
  | x, levels + 1, p => world.New w w' x ∧
      ∃ z, (world.files w').lookup x dots = some z ∧ World.Below w w' z levels p

variable {world}

theorem World.Extends.refl (w : σ) : world.Extends w w where
  root := rfl
  current := rfl
  lookup := id
  directory := id
  opens := id
  added := fun _ _ there free => .inl (free there)

theorem World.Extends.walk {w w' : σ} (extended : world.Extends w w') {start x : ν}
    {steps : List Name} (found : (world.files w).walk start steps = some x) :
    (world.files w').walk start steps = some x := by
  induction steps generalizing start with
  | nil => exact found
  | cons c steps ih =>
      rw [Places.walk_cons, Option.bind_eq_some_iff] at found ⊢
      obtain ⟨y, entry, later⟩ := found
      exact ⟨y, extended.lookup entry, ih later⟩

theorem World.Extends.place {w w' : σ} (extended : world.Extends w w') {name : Name} {x : ν}
    (found : world.place w name = some x) : world.place w' name = some x := by
  rw [World.place, Places.start, extended.root, extended.current]
  exact extended.walk found

theorem World.Made.extends {w w' : σ} {p y : ν} {c : Name} (made : world.Made w w' p c y)
    (free : ¬world.taken w p c) : world.Extends w w' where
  root := made.root
  current := made.current
  lookup := by
    intro x c' z entry
    have old : x ≠ y := by
      rintro rfl
      exact made.unused (world.lookup_directory entry)
    rw [made.lookup x c' old, entry]
    rintro rfl rfl
    exact free (world.lookup_taken entry)
  directory := by
    intro x there
    by_cases same : x = y
    · exact same ▸ made.directory
    · rwa [made.directories x same]
  opens := by
    intro x opens
    by_cases same : x = y
    · exact same ▸ world.opens made.directory
    · rwa [made.opens x same]
  added := by
    intro x c' noDot noDots there untaken
    by_cases same : x = y
    · subst same
      exact .inl (made.empty c' noDot noDots)
    · rw [made.directories x same] at there
      by_cases entry : x = p ∧ c' = c
      · obtain ⟨rfl, rfl⟩ := entry
        exact .inr ⟨y, made.entry, ⟨made.directory, made.unused⟩, made.parent⟩
      · refine .inl ?_
        rw [made.taken x c' same fun parent name => entry ⟨parent, name⟩]
        exact untaken there

theorem World.Extends.trans {w w' w'' : σ} (first : world.Extends w w')
    (second : world.Extends w' w'') : world.Extends w w'' where
  root := second.root.trans first.root
  current := second.current.trans first.current
  lookup := fun entry => second.lookup (first.lookup entry)
  directory := fun there => second.directory (first.directory there)
  opens := fun opens => second.opens (first.opens opens)
  added := by
    intro x c noDot noDots there untaken
    have later : (world.directory w' x → ¬world.taken w' x c) → ¬world.taken w'' x c ∨
        ∃ y, (world.files w'').lookup x c = some y ∧ world.New w w'' y ∧
          (world.files w'').lookup y dots = some x := by
      intro free
      rcases second.added noDot noDots there free with still | ⟨y, entry, new, parent⟩
      · exact .inl still
      · exact .inr ⟨y, entry, ⟨new.1, fun old => new.2 (first.directory old)⟩, parent⟩
    by_cases before : world.directory w' x
    · rcases first.added noDot noDots before untaken with free | ⟨y, entry, new, parent⟩
      · exact later fun _ => free
      · exact .inr ⟨y, second.lookup entry, ⟨second.directory new.1, new.2⟩, second.lookup parent⟩
    · exact later fun there' => absurd there' before

theorem World.Below.mono {w w' w'' : σ} (extended : world.Extends w' w'') {levels : Nat} {x p : ν}
    (below : world.Below w w' x levels p) : world.Below w w'' x levels p := by
  induction levels generalizing x with
  | zero => exact below
  | succ levels ih =>
      obtain ⟨new, z, parent, later⟩ := below
      exact ⟨⟨extended.directory new.1, new.2⟩, z, extended.lookup parent, ih later⟩

variable (world)

/-- The directory of a name is there, as its components say. -/
def World.Reached (w w' : σ) (name : Name) : Prop :=
  match world.spot w name with
  | .found x => world.place w' name = some x
  | .missing p levels => ∃ x, world.place w' name = some x ∧ world.Below w w' x levels p
  | .blocked => False

variable {world}

/-- A missing component is made, or has been made before. -/
theorem mkdir_missing (grants : world.Grants) {w w' : σ} (extended : world.Extends w w')
    {d : Name} {x : ν} (upper : world.place w' (dirPart d) = some x)
    (there : world.directory w' x) (noDot : filePart d ≠ [dot]) (noDots : filePart d ≠ dots)
    (free : world.directory w x → ¬world.taken w x (filePart d)) :
    ∃ y, world.place (fs.mkdir d w') d = some y ∧ world.Extends w' (fs.mkdir d w') ∧
      world.New w (fs.mkdir d w') y ∧ (world.files (fs.mkdir d w')).lookup y dots = some x := by
  have place : ∀ {y}, (world.files w').lookup x (filePart d) = some y →
      world.place w' d = some y := fun entry => by
    rw [world.place_parts, upper]
    exact entry
  rcases extended.added noDot noDots there free with untaken | ⟨y, entry, new, parent⟩
  · obtain ⟨y, made⟩ := grants.makes d w' x upper there untaken
    have later := made.extends untaken
    refine ⟨y, ?_, later, ⟨made.directory, fun old => made.unused (extended.directory old)⟩,
      made.parent⟩
    rw [world.place_parts, later.place upper]
    exact made.entry
  · rw [grants.exist d w' (by rw [place entry]; rfl)]
    exact ⟨y, place entry, .refl w', new, parent⟩

/-- One turn of the recursion on its way back. -/
theorem reached_mkdir (grants : world.Grants) {w w' : σ} (extended : world.Extends w w') {d : Name}
    (reached : world.Reached w w' (dirPart d)) (unblocked : world.spot w d ≠ .blocked) :
    world.Extends w (fs.mkdir d w') ∧ world.Reached w (fs.mkdir d w') d := by
  have exist : ∀ {y}, world.place w' d = some y → fs.mkdir d w' = w' := fun there =>
    grants.exist d w' (by rw [there]; rfl)
  have place : ∀ {x y}, world.place w' (dirPart d) = some x →
      (world.files w').lookup x (filePart d) = some y → world.place w' d = some y := by
    intro x y upper entry
    rw [world.place_parts, upper]
    exact entry
  -- a component that is looked up in an old place, where it is not found
  have fresh : ∀ {x}, world.place w' (dirPart d) = some x →
      (world.files w).lookup x (filePart d) = none →
      world.spot w d = world.fresh w x (filePart d) →
      world.Extends w (fs.mkdir d w') ∧ world.Reached w (fs.mkdir d w') d := by
    intro x upper absent spot
    rw [World.fresh] at spot
    split at spot
    next free =>
      have noDot : filePart d ≠ [dot] := by
        intro same
        rw [same, world.lookup_dot free.1] at absent
        cases absent
      have noDots : filePart d ≠ dots := fun same => free.2 (same ▸ world.taken_dots free.1)
      obtain ⟨y, there, later, new, parent⟩ := mkdir_missing grants extended upper
        (extended.directory free.1) noDot noDots fun _ => free.2
      refine ⟨extended.trans later, ?_⟩
      rw [World.Reached, spot]
      exact ⟨y, there, new, x, parent, rfl⟩
    next => exact absurd spot unblocked
  rw [World.Reached] at reached
  have parts := world.spot_parts w d
  cases spot : world.spot w (dirPart d) with
  | found x =>
      simp only [spot, World.next] at reached parts
      cases entry : (world.files w).lookup x (filePart d) with
      | none =>
          rw [entry] at parts
          exact fresh reached entry parts
      | some y =>
          rw [entry] at parts
          have there := place reached (extended.lookup entry)
          rw [exist there, World.Reached, parts]
          exact ⟨extended, there⟩
  | missing p levels =>
      simp only [spot] at reached parts
      obtain ⟨x, upper, below⟩ := reached
      cases levels with
      | zero =>
          obtain rfl : x = p := below
          rw [World.next] at parts
          split at parts
          next => exact absurd parts unblocked
          next =>
            cases entry : (world.files w).lookup x (filePart d) with
            | none =>
                rw [entry] at parts
                exact fresh upper entry parts
            | some y =>
                rw [entry] at parts
                have there := place upper (extended.lookup entry)
                rw [exist there, World.Reached, parts]
                exact ⟨extended, y, there, rfl⟩
      | succ levels =>
          rw [World.next] at parts
          obtain ⟨new, z, parent, later⟩ := below
          split at parts
          next => exact absurd parts unblocked
          next noDot =>
            split at parts
            next up =>
              have there := place upper (up ▸ parent)
              rw [exist there, World.Reached, parts]
              exact ⟨extended, z, there, later⟩
            next noDots =>
              obtain ⟨y, there, after, new', parent'⟩ := mkdir_missing grants extended upper
                new.1 noDot noDots fun old => absurd old new.2
              refine ⟨extended.trans after, ?_⟩
              rw [World.Reached, parts]
              exact ⟨y, there, new', x, parent', World.Below.mono after ⟨new, z, parent, later⟩⟩
  | blocked =>
      simp only [spot] at reached

theorem spot_of_walk {w : σ} {start x : ν} {steps : List Name}
    (found : (world.files w).walk start steps = some x) :
    steps.foldl (world.next w) (.found start) = .found x := by
  induction steps generalizing start with
  | nil => exact congrArg Spot.found (Option.some.inj found)
  | cons c steps ih =>
      rw [Places.walk_cons, Option.bind_eq_some_iff] at found
      obtain ⟨y, entry, later⟩ := found
      rw [List.foldl_cons, World.next, entry]
      exact ih later

/-- Behind a component that is missing, nothing is found. -/
theorem next_found {w : σ} {s : Spot ν} {c : Name} {y : ν} (found : world.next w s c = .found y) :
    ∃ x, s = .found x ∧ (world.files w).lookup x c = some y := by
  have fresh : ∀ x, world.fresh w x c ≠ .found y := by
    intro x
    rw [World.fresh]
    split <;> exact fun same => by cases same
  cases s with
  | found x =>
      refine ⟨x, rfl, ?_⟩
      rw [World.next] at found
      split at found
      next entry =>
        cases found
        exact entry
      next => exact absurd found (fresh x)
  | missing x levels =>
      cases levels with
      | zero =>
          rw [World.next] at found
          split at found
          · cases found
          · split at found
            · cases found
            · exact absurd found (fresh x)
      | succ levels =>
          rw [World.next] at found
          split at found
          · cases found
          · split at found <;> cases found
  | blocked => cases found

theorem walk_of_spot {w : σ} {start x : ν} {steps : List Name}
    (found : steps.foldl (world.next w) (.found start) = .found x) :
    (world.files w).walk start steps = some x := by
  induction steps using List.reverseRecOn generalizing x with
  | nil => exact congrArg some (Spot.found.inj found)
  | append_singleton steps c ih =>
      rw [List.foldl_append, List.foldl_cons, List.foldl_nil] at found
      obtain ⟨y, before, entry⟩ := next_found found
      rw [Places.walk_append, ih before, Option.bind_some, Places.walk_cons, entry]
      rfl

/-- With nothing in the way of a directory, nothing is in the way of the one above it. -/
theorem World.Open.dirPart {w : σ} {d : Name} (opened : world.Open w d) :
    world.Open w (dirPart d) := by
  have unblocked : world.spot w d ≠ .blocked := by
    intro blocked
    simp [World.Open, blocked] at opened
  rw [world.spot_parts] at unblocked
  -- what is not blocked goes on from a directory
  have directory : ∀ {x}, (match (world.files w).lookup x (filePart d) with
      | some y => Spot.found y
      | none => world.fresh w x (filePart d)) ≠ .blocked → world.directory w x := by
    intro x goes
    split at goes
    next entry => exact world.lookup_directory entry
    next =>
      rw [World.fresh] at goes
      split at goes
      next free => exact free.1
      next => exact absurd rfl goes
  rw [World.Open]
  cases spot : world.spot w (Sup.dirPart d) with
  | found x =>
      rw [spot, World.next] at unblocked
      exact fun _ => world.opens (directory unblocked)
  | missing x levels =>
      cases levels with
      | zero =>
          rw [spot, World.next] at unblocked
          refine fun _ => world.opens (directory fun blocked => unblocked ?_)
          split
          next => rfl
          next =>
            split at blocked
            next => cases blocked
            next => exact blocked
      | succ levels => trivial
  | blocked =>
      rw [spot] at unblocked
      exact unblocked rfl

/-- A directory whose name ends with `.` is there, or in the way. -/
theorem World.Open.goes {w : σ} {d : Name} (opened : world.Open w d)
    (absent : ¬(fs.stat d w).isSome) : filePart d ≠ [dot] := by
  intro ends
  have parts := world.spot_parts w d
  rw [ends] at parts
  cases spot : world.spot w (Sup.dirPart d) with
  | found x =>
      rw [spot, World.next] at parts
      split at parts
      next y entry =>
        rw [World.Open, parts] at opened
        exact absent ((world.stat_iff w d).mpr ⟨y, walk_of_spot parts, opened⟩)
      next missing =>
        rw [World.fresh] at parts
        split at parts
        next free =>
          rw [world.lookup_dot free.1] at missing
          cases missing
        next => simp [World.Open, parts] at opened
  | missing x levels =>
      rw [spot] at parts
      cases levels <;> simp [World.next] at parts <;> simp [World.Open, parts] at opened
  | blocked =>
      rw [spot] at parts
      simp [World.next] at parts
      simp [World.Open, parts] at opened

theorem estabd_open (grants : world.Grants) {fuel : Nat} {d : Name} (w : σ)
    (enough : depth d < fuel) (opened : world.Open w d) :
    (estabd fs fuel d w).1 = false ∧ world.Extends w (estabd fs fuel d w).2 ∧
      world.Reached w (estabd fs fuel d w).2 d := by
  induction fuel generalizing d with
  | zero => exact absurd enough (Nat.not_lt_zero _)
  | succ fuel ih =>
      rw [estabd]
      split
      next there =>
        obtain ⟨x, place, -⟩ := (world.stat_iff w d).mp there
        refine ⟨rfl, .refl w, ?_⟩
        rw [World.Reached, World.spot, spot_of_walk place]
        exact place
      next absent =>
        have goes := opened.goes absent
        rw [if_neg (show ¬filePart d = [46] from goes)]
        obtain ⟨had, extended, reached⟩ := ih (d := dirPart d)
          (Nat.lt_of_lt_of_le (depth_dirPart goes) (Nat.le_of_lt_succ enough)) opened.dirPart
        split
        next w' ran =>
          rw [ran] at had
          cases had
        next w' ran =>
          rw [ran] at extended reached
          have unblocked : world.spot w d ≠ .blocked := by
            intro blocked
            simp [World.Open, blocked] at opened
          obtain ⟨extended', reached'⟩ := reached_mkdir grants extended reached unblocked
          have there : (fs.stat d (fs.mkdir d w')).isSome := by
            rw [world.stat_iff]
            rw [World.Open] at opened
            rw [World.Reached] at reached'
            split at reached'
            next x spot =>
              rw [spot] at opened
              exact ⟨x, reached', fun last => extended'.opens (opened last)⟩
            next p levels spot =>
              obtain ⟨x, place, below⟩ := reached'
              rw [spot] at opened
              refine ⟨x, place, fun last => ?_⟩
              cases levels with
              | zero =>
                  obtain rfl : x = p := below
                  exact extended'.opens (opened last)
              | succ levels => exact world.opens below.1.1
            next => cases reached'
          exact ⟨by simpa [Option.isSome_iff_ne_none] using there, extended', reached'⟩

end Making

/-- `establishdir` ends, changes the file system by making directories of the name alone, and
says whether the directory part is there in the end, which it is if nothing is in the way. -/
theorem establishdir_spec (world : World fs ν) (fname : Name) (w : σ) :
    (∀ more, estabd fs ((dirPart fname).length + 1 + more) (dirPart fname) w =
      establishdir fs fname w) ∧
    ((establishdir fs fname w).1 = true ↔
      (fs.stat (dirPart fname) (establishdir fs fname w).2).isNone) ∧
    (∃ names, (establishdir fs fname w).2 = made fs names w ∧ ∀ m ∈ names, Ancestor fname m) ∧
    (world.Grants → world.Open w (dirPart fname) → (establishdir fs fname w).1 = false ∧
      (fs.stat (dirPart fname) (establishdir fs fname w).2).isSome) := by
  have enough := depth_lt (dirPart fname)
  have tells := estabd_iff world w enough
  refine ⟨estabd_depth w enough, tells, ?_, fun grants opened => ?_⟩
  · obtain ⟨names, result, above⟩ : ∃ names,
        (estabd fs ((dirPart fname).length + 1) (dirPart fname) w).2 = made fs names w ∧
        ∀ m ∈ names, m = dirPart fname ∨ Ancestor (dirPart fname) m := estabd_made _ _ w
    refine ⟨names, result, fun m inside => ?_⟩
    rcases above m inside with rfl | upper
    · exact .parent fname
    · exact .above upper
  · have had := (estabd_open grants w enough opened).1
    refine ⟨had, ?_⟩
    rw [establishdir]
    cases there : fs.stat (dirPart fname) (estabd fs ((dirPart fname).length + 1)
        (dirPart fname) w).2 with
    | none =>
        rw [tells.mpr (by rw [there]; rfl)] at had
        cases had
    | some st => rfl

/-! ## A small file system -/

/-- Directories and plain files below a root, which is the current directory.  A place is
the list of the components from the root, the last one first. -/
structure Disk where
  directories : List (List Name)
  plain : List (List Name)
  parents : ∀ {c x}, (c :: x ∈ directories ∨ c :: x ∈ plain) → x = [] ∨ x ∈ directories

namespace Disk

def directory (disk : Disk) (x : List Name) : Bool := x = [] || x ∈ disk.directories

def lookup (disk : Disk) (x : List Name) (c : Name) : Option (List Name) :=
  if disk.directory x then
    if c = [dot] then some x
    else if c = dots then some x.tail
    else if c :: x ∈ disk.directories ∨ c :: x ∈ disk.plain then some (c :: x)
    else none
  else none

def files (disk : Disk) : Places Byte (List Name) where
  root := []
  current := []
  lookup := disk.lookup
  opens _ := true

def place (disk : Disk) (name : Name) : Option (List Name) :=
  disk.files.walk (disk.files.start slash name) (components slash name)

/-- The disk with one more directory. -/
def add (disk : Disk) (c : Name) (p : List Name) (there : disk.directory p) : Disk where
  directories := (c :: p) :: disk.directories
  plain := disk.plain
  parents := by
    intro c' x entry
    rw [directory, Bool.or_eq_true, decide_eq_true_iff, decide_eq_true_iff] at there
    rcases entry with entry | entry
    · rcases List.mem_cons.mp entry with same | old
      · obtain ⟨-, rfl⟩ := List.cons.inj same
        exact there.imp_right (List.mem_cons_of_mem _)
      · exact (disk.parents (.inl old)).imp_right (List.mem_cons_of_mem _)
    · exact (disk.parents (.inr entry)).imp_right (List.mem_cons_of_mem _)

def mkdir (name : Name) (disk : Disk) : Disk :=
  match disk.place (dirPart name) with
  | none => disk
  | some p =>
      if there : disk.directory p = true ∧ disk.lookup p (filePart name) = none then
        disk.add (filePart name) p there.1
      else disk

/-- Only `stat` and `mkdir` do anything. -/
def system : FileSystem Disk where
  stat name disk := (disk.files.resolve slash name).map fun _ => default
  mkdir := mkdir
  lstat _ _ := none
  rmdir _ disk := (false, disk)
  removeTree _ disk := disk
  unlink _ disk := disk
  readlink _ _ := none
  link _ _ disk := (false, disk)
  symlink _ _ disk := (false, disk)
  chown _ _ _ disk := disk
  chmod _ _ disk := disk
  utimes _ _ disk := disk
  getpwnam _ := none
  getgrnam _ := none
  defaultIds _ := (0, 0)
  readable _ _ := false
  creatBackup _ disk := (false, disk)
  mkdirBackup _ disk := disk
  ffilecopy _ disk := disk
  creat _ _ disk := (false, disk)
  store _ _ _ disk := disk
  rename _ _ disk := (false, disk)
  reopen _ _ _ := false
  filecopy _ _ disk := (false, disk)
  discard _ _ disk := disk
  system _ disk := (false, disk)

theorem lookup_directory {disk : Disk} {x y : List Name} {c : Name}
    (entry : disk.lookup x c = some y) : disk.directory x := by
  rw [lookup] at entry
  split at entry
  next there => exact there
  next => cases entry

def world : World system (List Name) where
  files := files
  directory := directory
  taken disk x c := (disk.lookup x c).isSome
  stat_eq name disk := Option.isSome_map
  root_directory _ := rfl
  current_directory _ := rfl
  opens _ := rfl
  lookup_dot there := by
    simp only [files, lookup]
    rw [if_pos there]
    rfl
  taken_dots there := by
    rw [lookup, if_pos there, if_neg (by decide), if_pos rfl]
    rfl
  lookup_directory := lookup_directory
  lookup_taken entry := by
    simp only [files] at entry
    rw [entry]
    rfl

theorem add_directory {disk : Disk} {p : List Name} {c : Name} (there : disk.directory p)
    {x : List Name} (other : x ≠ c :: p) : (disk.add c p there).directory x = disk.directory x := by
  simp [directory, add, other]

theorem add_lookup {disk : Disk} {p : List Name} {c : Name} (there : disk.directory p)
    {x : List Name} {c' : Name} (other : x ≠ c :: p) (entry : x = p → c' ≠ c) :
    (disk.add c p there).lookup x c' = disk.lookup x c' := by
  have unequal : c' :: x ≠ c :: p := fun same => entry (List.cons.inj same).2 (List.cons.inj same).1
  rw [lookup, lookup, add_directory there other]
  simp [add, unequal]

/-- Where there is no entry, a directory is made. -/
theorem made_add {disk : Disk} {p : List Name} {c : Name} (there : disk.directory p)
    (absent : disk.lookup p c = none) : world.Made disk (disk.add c p there) p c (c :: p) := by
  rw [lookup, if_pos there] at absent
  split at absent
  · cases absent
  next noDot =>
  split at absent
  · cases absent
  next noDots =>
  split at absent
  · cases absent
  next noEntry =>
  have unused : ¬disk.directory (c :: p) := by
    rw [directory, Bool.or_eq_true, decide_eq_true_iff, decide_eq_true_iff]
    rintro (empty | old)
    · cases empty
    · exact noEntry (.inl old)
  have made : (disk.add c p there).directory (c :: p) := by simp [directory, add]
  refine ⟨rfl, rfl, unused, ?_, ?_, made, ?_, ?_, ?_, ?_, ?_, fun _ _ => rfl⟩
  · intro x c' entry
    have directory := lookup_directory entry
    simp only [world, files, lookup, if_pos directory] at entry
    split at entry
    · cases entry
      exact unused directory
    · split at entry
      · have up := Option.some.inj entry
        cases x with
        | nil => cases up
        | cons a x =>
            obtain rfl : x = c :: p := up
            rw [Disk.directory, Bool.or_eq_true, decide_eq_true_iff, decide_eq_true_iff] at directory
            rcases directory with empty | old
            · cases empty
            · rcases disk.parents (.inl old) with empty | parent
              · cases empty
              · exact noEntry (.inl parent)
      · split at entry
        next old =>
          rw [Option.some.inj entry] at old
          exact noEntry old
        next => cases entry
  · have upper : (disk.add c p there).directory p := by
      rwa [add_directory there (List.cons_ne_self c p).symm]
    simp only [world, files, lookup, if_pos upper, if_neg noDot, if_neg noDots]
    exact if_pos (.inl List.mem_cons_self)
  · simp only [world, files, lookup, if_pos made, if_neg (show dots ≠ [dot] by decide)]
    rfl
  · intro c' noDot' noDots'
    simp only [world, lookup, if_pos made, if_neg noDot', if_neg noDots']
    rw [if_neg]
    · exact Bool.false_ne_true
    · rintro (new | old)
      · rcases List.mem_cons.mp new with same | old
        · exact absurd (congrArg List.length same) (by simp)
        · rcases disk.parents (.inl old) with empty | parent
          · cases empty
          · exact noEntry (.inl parent)
      · rcases disk.parents (.inr old) with empty | parent
        · cases empty
        · exact noEntry (.inl parent)
  · exact fun x c' other entry => add_lookup there other entry
  · exact fun x c' other entry => congrArg Option.isSome (add_lookup there other entry)
  · exact fun x other => add_directory there other

theorem grants : world.Grants where
  exist name disk there := by
    rw [world.place_parts] at there
    change mkdir name disk = disk
    rw [mkdir]
    split
    · rfl
    next p upper =>
      split
      next free =>
        rw [show world.place disk (dirPart name) = some p from upper, Option.bind_some] at there
        rw [show (world.files disk).lookup p (filePart name) = none from free.2] at there
        cases there
      next => rfl
  makes name disk p upper there free := by
    have absent : disk.lookup p (filePart name) = none := by
      simpa [world, Option.isSome_iff_ne_none] using free
    have added : mkdir name disk = disk.add (filePart name) p there := by
      rw [mkdir, show disk.place (dirPart name) = some p from upper]
      exact dif_pos ⟨there, absent⟩
    refine ⟨filePart name :: p, ?_⟩
    change world.Made disk (mkdir name disk) p (filePart name) (filePart name :: p)
    rw [added]
    exact made_add there absent

end Disk

/-- A disk without files. -/
def emptyDisk : Disk where
  directories := []
  plain := []
  parents := by
    rintro c x (entry | entry) <;> cases entry

/-- On it `a` and `a/b` are made for `a//b/../b/c`. -/
theorem establishdir_empty :
    (establishdir Disk.system [97, 47, 47, 98, 47, 46, 46, 47, 98, 47, 99] emptyDisk).1 = false ∧
    (Disk.system.stat (dirPart [97, 47, 47, 98, 47, 46, 46, 47, 98, 47, 99])
      (establishdir Disk.system [97, 47, 47, 98, 47, 46, 46, 47, 98, 47, 99] emptyDisk).2).isSome := by
  have spot : Disk.world.spot emptyDisk (dirPart [97, 47, 47, 98, 47, 46, 46, 47, 98, 47, 99]) =
      .missing [] 2 := by decide +kernel
  have opened : Disk.world.Open emptyDisk (dirPart [97, 47, 47, 98, 47, 46, 46, 47, 98, 47, 99]) := by
    rw [World.Open, spot]
    trivial
  exact (establishdir_spec Disk.world _ emptyDisk).2.2.2 Disk.grants opened

/-- A disk with a plain file `f`. -/
def plainFile : Disk where
  directories := []
  plain := [[[102]]]
  parents := by
    rintro c x (entry | entry)
    · cases entry
    · exact .inl (List.cons.inj (List.mem_singleton.mp entry)).2

/-- The directory of `f/x/y` cannot be made where `f` is a plain file. -/
theorem establishdir_blocked : Disk.world.Grants ∧
    (establishdir Disk.system [102, 47, 120, 47, 121] plainFile).1 = true :=
  ⟨Disk.grants, by decide⟩

end MachFormal.Sup.Establish
