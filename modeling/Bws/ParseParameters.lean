import Bws.WalletSerialize
import Bws.Lib.Sweep

/-!
# Options with one dash and with two

`ParseParameters` puts the options into a sorted map and goes through it once: an option with two
dashes is taken for one with a single dash, and `-nofoo` for the opposite of `-foo`, where there is
no value yet.  The loop puts what it finds into the map that it goes through, so the order of the
names decides which of two comes first.

`--foo` comes before `-nofoo`, and before `--nofoo` where `foo` comes before `nofoo`; otherwise
`--nofoo` comes first, and its negation stays the value of `-foo` (`positive_decides_iff`).
-/

namespace Bws

/-! ## The source -/

/-- `mapArgs` -/
abbrev SettingsMap := Std.TreeMap (List UInt8) (List UInt8)

/-- `atoi`, which is `strtol` cut to an `int`. -/
def atoi (str : List UInt8) : Int32 := (atoi64 (cStr str)).toInt32

/-- What `GetBoolArg` makes of a value. -/
def boolOf (strValue : List UInt8) : Bool := if strValue = [] then true else atoi strValue ≠ 0

/-- `GetBoolArg` -/
def getBoolArg (mapArgs : SettingsMap) (strArg : List UInt8) (fDefault : Bool) : Bool :=
  match mapArgs[strArg]? with
  | some strValue => boolOf strValue
  | none => fDefault

/-- `"1"` or `"0"` -/
def boolText (value : Bool) : List UInt8 := if value then ascii "1" else ascii "0"

/-- `InterpretNegativeSetting` -/
def interpretNegativeSetting (name : List UInt8) (mapSettingsRet : SettingsMap) : SettingsMap :=
  if ascii "-no" <+: name then
    mapSettingsRet.insertIfNew (0x2d :: name.drop 3)
      (boolText !getBoolArg mapSettingsRet name false)
  else mapSettingsRet

/-- An argument up to its first `=`, and what stands behind it. -/
def splitArg (str : List UInt8) : List UInt8 × List UInt8 :=
  (str.takeWhile (· ≠ 0x3d), (str.dropWhile (· ≠ 0x3d)).drop 1)

/-- The options, up to the first argument that is none. -/
def optionsOf (args : List (List UInt8)) : List (List UInt8 × List UInt8) :=
  (args.map splitArg).takeWhile fun option ↦ option.1.head? = some 0x2d

/-- `mapArgs` after the first loop; the last value of an option is kept. -/
def settingsOf (args : List (List UInt8)) : SettingsMap :=
  (optionsOf args).foldl (fun m option ↦ m.insert option.1 option.2) ∅

/-- A round of the second loop. -/
def normalizeEntry (mapArgs : SettingsMap) (entry : List UInt8 × List UInt8) : SettingsMap :=
  if ascii "--" <+: entry.1 then
    interpretNegativeSetting entry.1.tail (mapArgs.insertIfNew entry.1.tail entry.2)
  else interpretNegativeSetting entry.1 mapArgs

/-- The names of the options, and a dash in front of everything that one of them ends with: no other
name is ever in the map. -/
def possibleNames (names : List (List UInt8)) : List (List UInt8) :=
  names.flatMap fun name ↦ name :: name.tails.map (0x2d :: ·)

def optionNames (args : List (List UInt8)) : List (List UInt8) := (optionsOf args).map Prod.fst

/-- `ParseParameters` for the arguments behind the name of the program. -/
def parseParameters (args : List (List UInt8)) : SettingsMap :=
  Sweep.sweep normalizeEntry ((possibleNames (optionNames args)).length + 1) none (settingsOf args)

/-! ## The forms of an option -/

/-- `-foo` -/
def single (foo : List UInt8) : List UInt8 := 0x2d :: foo

/-- `--foo` -/
def double (foo : List UInt8) : List UInt8 := 0x2d :: 0x2d :: foo

/-- `nofoo` -/
def negative (foo : List UInt8) : List UInt8 := 0x6e :: 0x6f :: foo

/-- The value of `-foo` is that of the positive form, wherever one is given; the form with a single
dash goes first. -/
def PositiveDecides (foo : List UInt8) (args : List (List UInt8)) : Prop :=
  ∀ strValue ∈ (settingsOf args)[single foo]?.or (settingsOf args)[double foo]?,
    ∀ fDefault, getBoolArg (parseParameters args) (single foo) fDefault = boolOf strValue

/-- `no-no-…foo` -/
def chained (foo : List UInt8) : ℕ → List UInt8
  | 0 => foo
  | j + 1 => 0x6e :: 0x6f :: 0x2d :: chained foo j

/-- A name from which the loop comes to `--foo`: with more dashes, or with some `no-` between. -/
def Feeds (foo name : List UInt8) : Prop :=
  ∃ a j, name = List.replicate (a + 2) 0x2d ++ chained foo j

/-- The option is given with a single dash, or not with two; or `foo` comes before `nofoo`; or the
loop does not come to `--nofoo`. -/
def PositiveFirst (foo : List UInt8) (names : List (List UInt8)) : Prop :=
  single foo ∈ names ∨ double foo ∉ names ∨ compare foo (negative foo) = .lt ∨
    ∀ name ∈ names, ¬ Feeds (negative foo) name

/-! ## A round -/

/-- The names that a round puts into the map. -/
inductive Gives : List UInt8 → List UInt8 → Prop
  | dash (y) : Gives (double y) (single y)
  | no (y) : Gives (single (negative y)) (single y)
  | both (y) : Gives (double (negative y)) (single y)

theorem ascii_dash_no : ascii "-no" = [0x2d, 0x6e, 0x6f] := by decide

theorem ascii_dashes : ascii "--" = [0x2d, 0x2d] := by decide

section

variable {m : SettingsMap} {name s : List UInt8} {entry : List UInt8 × List UInt8}

theorem mem_insertIfNew {v : List UInt8} : s ∈ m.insertIfNew name v ↔ s = name ∨ s ∈ m := by
  rw [Std.TreeMap.mem_insertIfNew, Std.compare_eq_iff_eq, eq_comm]

theorem mem_interpretNegativeSetting : s ∈ interpretNegativeSetting name m ↔
    s ∈ m ∨ ∃ y, name = single (negative y) ∧ s = single y := by
  rw [interpretNegativeSetting, ascii_dash_no]
  split_ifs with hname
  · obtain ⟨y, rfl⟩ := hname
    rw [mem_insertIfNew, or_comm]
    refine or_congr_right ⟨fun h ↦ ⟨y, rfl, h⟩, ?_⟩
    rintro ⟨_, ⟨⟩, rfl⟩
    rfl
  · refine (or_iff_left ?_).symm
    rintro ⟨y, rfl, -⟩
    exact hname ⟨y, rfl⟩

theorem mem_normalizeEntry : s ∈ normalizeEntry m entry ↔ s ∈ m ∨ Gives entry.1 s := by
  obtain ⟨name, v⟩ := entry
  rw [normalizeEntry, ascii_dashes]
  split_ifs with hdashes
  · obtain ⟨y, rfl⟩ := hdashes
    rw [mem_interpretNegativeSetting, mem_insertIfNew]
    constructor
    · rintro ((rfl | hs) | ⟨z, hz, rfl⟩)
      · exact .inr (.dash y)
      · exact .inl hs
      · obtain rfl : y = negative z := List.tail_eq_of_cons_eq hz
        exact .inr (.both z)
    · rintro (hs | hgives)
      · exact .inl (.inr hs)
      · cases hgives with
        | dash => exact .inl (.inl rfl)
        | both z => exact .inr ⟨z, rfl, rfl⟩
  · rw [mem_interpretNegativeSetting]
    refine or_congr_right ⟨?_, fun hgives ↦ ?_⟩
    · rintro ⟨z, rfl, rfl⟩
      exact .no z
    · cases hgives with
      | dash y => exact absurd ⟨y, rfl⟩ hdashes
      | no z => exact ⟨z, rfl, rfl⟩
      | both z => exact absurd ⟨negative z, rfl⟩ hdashes

/-- A value that is there stays. -/
theorem getElem?_insertIfNew_of_mem {v : List UInt8} (hs : s ∈ m) :
    (m.insertIfNew name v)[s]? = m[s]? := by
  rw [Std.TreeMap.getElem?_insertIfNew]
  refine if_neg ?_
  rintro ⟨heq, hnot⟩
  obtain rfl := Std.compare_eq_iff_eq.1 heq
  exact hnot hs

theorem getElem?_insertIfNew_of_ne {v : List UInt8} (hs : s ≠ name) :
    (m.insertIfNew name v)[s]? = m[s]? := by
  rw [Std.TreeMap.getElem?_insertIfNew]
  refine if_neg ?_
  rintro ⟨heq, -⟩
  exact hs (Std.compare_eq_iff_eq.1 heq).symm

theorem getElem?_insertIfNew_self {v : List UInt8} (hs : s ∉ m) :
    (m.insertIfNew s v)[s]? = some v := by
  rw [Std.TreeMap.getElem?_insertIfNew]
  exact if_pos ⟨Std.compare_eq_iff_eq.2 rfl, hs⟩

theorem getElem?_interpretNegativeSetting_of_mem (hs : s ∈ m) :
    (interpretNegativeSetting name m)[s]? = m[s]? := by
  rw [interpretNegativeSetting]
  split_ifs
  · exact getElem?_insertIfNew_of_mem hs
  · rfl

theorem getElem?_normalizeEntry_of_mem (hs : s ∈ m) : (normalizeEntry m entry)[s]? = m[s]? := by
  rw [normalizeEntry]
  split_ifs
  · have hs' : s ∈ m.insertIfNew entry.1.tail entry.2 := mem_insertIfNew.2 (.inr hs)
    rw [getElem?_interpretNegativeSetting_of_mem hs', getElem?_insertIfNew_of_mem hs]
  · exact getElem?_interpretNegativeSetting_of_mem hs

theorem interpretNegativeSetting_single (y : List UInt8) (m : SettingsMap) :
    interpretNegativeSetting (single (negative y)) m =
      m.insertIfNew (single y) (boolText !getBoolArg m (single (negative y)) false) := by
  rw [interpretNegativeSetting, ascii_dash_no]
  exact if_pos ⟨y, rfl⟩

theorem normalizeEntry_double (y v : List UInt8) (m : SettingsMap) :
    normalizeEntry m (double y, v) =
      interpretNegativeSetting (single y) (m.insertIfNew (single y) v) := by
  rw [normalizeEntry, ascii_dashes]
  exact if_pos ⟨y, rfl⟩

/-- The option with two dashes gives its value to the one with a single dash. -/
theorem getElem?_normalizeEntry_double {foo v : List UInt8} (hnot : single foo ∉ m) :
    (normalizeEntry m (double foo, v))[single foo]? = some v := by
  have hmem : single foo ∈ m.insertIfNew (single foo) v := mem_insertIfNew.2 (.inl rfl)
  rw [normalizeEntry_double, getElem?_interpretNegativeSetting_of_mem hmem,
    getElem?_insertIfNew_self hnot]

theorem single_negative_ne (foo : List UInt8) : single foo ≠ single (negative foo) := by
  intro h
  have hlen := congrArg List.length h
  simp only [single, negative, List.length_cons] at hlen
  omega

theorem getElem?_interpretNegativeSetting_negative {foo : List UInt8} (hnot : single foo ∉ m)
    (hmem : single (negative foo) ∈ m) :
    ∃ b, (interpretNegativeSetting (single (negative foo)) m)[single (negative foo)]? = some b ∧
      (interpretNegativeSetting (single (negative foo)) m)[single foo]? =
        some (boolText !boolOf b) := by
  obtain ⟨b, hb⟩ := Option.isSome_iff_exists.1 (Std.TreeMap.isSome_getElem?_iff_mem.2 hmem)
  refine ⟨b, ?_, ?_⟩
  · rw [getElem?_interpretNegativeSetting_of_mem hmem, hb]
  · rw [interpretNegativeSetting_single, getElem?_insertIfNew_self hnot, getBoolArg, hb]

theorem normalizeEntry_single_negative (y v : List UInt8) (m : SettingsMap) :
    normalizeEntry m (single (negative y), v) =
      interpretNegativeSetting (single (negative y)) m := by
  rw [normalizeEntry, ascii_dashes]
  refine if_neg ?_
  rintro ⟨_, h⟩
  cases h

/-- The negation of `-nofoo` is put in for `-foo`. -/
theorem getElem?_normalizeEntry_negative {foo v : List UInt8} (hnot : single foo ∉ m)
    (hname : name = single (negative foo) ∧ name ∈ m ∨ name = double (negative foo)) :
    ∃ b, (normalizeEntry m (name, v))[single (negative foo)]? = some b ∧
      (normalizeEntry m (name, v))[single foo]? = some (boolText !boolOf b) := by
  rcases hname with ⟨rfl, hmem⟩ | rfl
  · rw [normalizeEntry_single_negative]
    exact getElem?_interpretNegativeSetting_negative hnot hmem
  · rw [normalizeEntry_double]
    refine getElem?_interpretNegativeSetting_negative ?_ (mem_insertIfNew.2 (.inl rfl))
    rw [mem_insertIfNew]
    exact not_or_intro (single_negative_ne foo) hnot

end

/-! ## The order of the names -/

section

variable {foo name l l' : List UInt8}

theorem compare_cons_self (c : UInt8) (l l' : List UInt8) :
    compare (c :: l) (c :: l') = compare l l' := by
  have hself : compare c c = .eq := Std.ReflCmp.compare_self
  rw [List.compare_eq_compareLex, List.compareLex_cons_cons, hself]
  rfl

theorem compare_cons_of_lt {c c' : UInt8} (h : c < c') (l l' : List UInt8) :
    compare (c :: l) (c' :: l') = .lt := by
  have hlt : compare c c' = .lt := compareOfLessAndEq_eq_lt.2 h
  rw [List.compare_eq_compareLex, List.compareLex_cons_cons, hlt]
  rfl

/-- Where `nofoo` comes before `foo`, the first character comes behind a dash. -/
theorem exists_cons_of_negative_lt (h : compare (negative foo) foo = .lt) :
    ∃ c f, foo = c :: f ∧ 0x2d < c := by
  rcases foo with - | ⟨c, f⟩
  · cases h
  · refine ⟨c, f, rfl, ?_⟩
    by_contra hle
    have hc : c < 0x6e := UInt8.lt_of_le_of_lt (UInt8.not_lt.1 hle) (by decide)
    exact Sweep.compare_asymm h (compare_cons_of_lt hc _ _)

/-- Going on from a name that feeds `--foo`, the loop was at one that does. -/
theorem Feeds.of_gives (hgives : Gives name l) (hfeeds : Feeds foo l)
    (hlt : compare name l = .lt) : Feeds foo name := by
  obtain ⟨a, j, hl⟩ := hfeeds
  cases hgives with
  | dash y =>
    refine ⟨a + 1, j, ?_⟩
    rw [List.replicate_succ, List.cons_append, ← hl]
    rfl
  | no y =>
    -- the name with two dashes is in front
    have hy : y = List.replicate (a + 1) 0x2d ++ chained foo j := List.tail_eq_of_cons_eq hl
    have hgt : compare (single y) (single (negative y)) = .lt := by
      rw [single, single, compare_cons_self, hy]
      exact compare_cons_of_lt (by decide) _ _
    exact absurd hlt (Sweep.compare_asymm hgt)
  | both y =>
    have hy : y = List.replicate (a + 1) 0x2d ++ chained foo j := List.tail_eq_of_cons_eq hl
    rcases a with - | a
    · refine ⟨0, j + 1, ?_⟩
      rw [hy]
      rfl
    · have hgt : compare (single y) (double (negative y)) = .lt := by
        rw [single, double, compare_cons_self, hy, List.replicate_succ, List.cons_append,
          compare_cons_self]
        exact compare_cons_of_lt (by decide) _ _
      exact absurd hlt (Sweep.compare_asymm hgt)

/-- The names that can give `-foo` a value. -/
theorem Gives.single_cases (h : Gives name (single foo)) :
    name = double foo ∨ name = single (negative foo) ∨ name = double (negative foo) := by
  cases h with
  | dash => exact .inl rfl
  | no => exact .inr (.inl rfl)
  | both => exact .inr (.inr rfl)

theorem double_lt_single_negative (foo : List UInt8) :
    compare (double foo) (single (negative foo)) = .lt := by
  rw [double, single, compare_cons_self]
  exact compare_cons_of_lt (by decide) _ _

theorem compare_double (foo foo' : List UInt8) :
    compare (double foo) (double foo') = compare foo foo' := by
  rw [double, double, compare_cons_self, compare_cons_self]

theorem feeds_double (foo : List UInt8) : Feeds foo (double foo) := ⟨0, 0, rfl⟩

end

/-! ## The positive form comes first -/

/-- No name that is left feeds `--foo`. -/
def NotFed (foo : List UInt8) (cursor : Option (List UInt8)) (m : SettingsMap) : Prop :=
  ∀ name ∈ m, Sweep.behind cursor name = true → ¬ Feeds foo name

section

variable {foo : List UInt8} {cursor : Option (List UInt8)} {m : SettingsMap}
  {e : List UInt8 × List UInt8}

theorem NotFed.round (h : NotFed foo cursor m) (hnext : Sweep.next cursor m = some e) :
    NotFed foo (some e.1) (normalizeEntry m e) := by
  obtain ⟨-, hbehind, -⟩ := Sweep.next_eq_some hnext
  intro name hname hlt hfeeds
  rw [Sweep.behind_some] at hlt
  rcases mem_normalizeEntry.1 hname with hmem | hgives
  · exact h name hmem (Sweep.behind_trans hbehind hlt) hfeeds
  · exact h e.1 (Sweep.mem_of_next_eq_some hnext) hbehind (hfeeds.of_gives hgives hlt)

/-- `-foo` has the value of `--foo`, or the loop comes to `--foo` before anything else that gives
`-foo` a value. -/
def TakesPositive (foo v : List UInt8) (cursor : Option (List UInt8)) (m : SettingsMap) : Prop :=
  m[double foo]? = some v ∧ (m[single foo]? = some v ∨
    single foo ∉ m ∧ Sweep.behind cursor (double foo) = true ∧
      (compare foo (negative foo) = .lt ∨ NotFed (negative foo) cursor m))

theorem mem_of_getElem? {name v : List UInt8} (h : m[name]? = some v) : name ∈ m :=
  Std.TreeMap.isSome_getElem?_iff_mem.1 (by rw [h]; rfl)

theorem TakesPositive.round {v : List UInt8} (h : TakesPositive foo v cursor m)
    (hnext : Sweep.next cursor m = some e) :
    TakesPositive foo v (some e.1) (normalizeEntry m e) := by
  obtain ⟨hdouble, hsingle⟩ := h
  obtain ⟨hget, hbehind, hfirst⟩ := Sweep.next_eq_some hnext
  refine ⟨by rw [getElem?_normalizeEntry_of_mem (mem_of_getElem? hdouble), hdouble], ?_⟩
  rcases hsingle with hsingle | ⟨hnot, hdoubleBehind, hsafe⟩
  · left
    rw [getElem?_normalizeEntry_of_mem (mem_of_getElem? hsingle), hsingle]
  rcases hfirst _ (mem_of_getElem? hdouble) hdoubleBehind with heq | hlt
  · left
    have hv : e = (double foo, v) := by
      refine Prod.ext heq.symm (Option.some.inj ?_)
      rw [← hget, ← heq, hdouble]
    rw [hv]
    exact getElem?_normalizeEntry_double hnot
  · right
    refine ⟨fun hmem ↦ ?_, Sweep.behind_some.2 hlt, hsafe.imp id fun h ↦ h.round hnext⟩
    -- neither `-nofoo` nor `--nofoo` is reached before
    rcases (mem_normalizeEntry.1 hmem).resolve_left hnot |>.single_cases with heq | heq | heq
    · rw [heq] at hlt
      exact Sweep.compare_asymm hlt hlt
    · rw [heq] at hlt
      exact Sweep.compare_asymm (double_lt_single_negative foo) hlt
    · rcases hsafe with hfoo | hfed
      · rw [heq, compare_double] at hlt
        exact Sweep.compare_asymm hfoo hlt
      · exact hfed e.1 (Sweep.mem_of_next_eq_some hnext) hbehind (heq ▸ feeds_double _)

/-! ## The negation comes first -/

/-- There is a value for `-foo`, or the loop is on its way to `--nofoo`. -/
def ComesToNegative (foo : List UInt8) (cursor : Option (List UInt8)) (m : SettingsMap) : Prop :=
  single foo ∈ m ∨ ∃ name ∈ m, Sweep.behind cursor name = true ∧ Feeds (negative foo) name

/-- One more `no-` moves a name to the front. -/
theorem compare_chained_succ (h : compare (negative foo) foo = .lt) (j : ℕ) :
    compare (chained (negative foo) (j + 1)) (chained (negative foo) j) = .lt := by
  induction j with
  | zero =>
    obtain ⟨c, f, rfl, hc⟩ := exists_cons_of_negative_lt h
    rw [chained, chained, negative, compare_cons_self, compare_cons_self]
    exact compare_cons_of_lt hc _ _
  | succ j ih =>
    rw [chained, chained, compare_cons_self, compare_cons_self, compare_cons_self]
    exact ih

theorem exists_chained_negative_eq (foo : List UInt8) (j : ℕ) :
    ∃ l, chained (negative foo) j = 0x6e :: l := by
  cases j with
  | zero => exact ⟨_, rfl⟩
  | succ j => exact ⟨_, rfl⟩

/-- With one dash less, such a name is further behind. -/
theorem compare_replicate_succ (foo : List UInt8) (a j : ℕ) :
    compare (List.replicate (a + 1) 0x2d ++ chained (negative foo) j)
      (List.replicate a 0x2d ++ chained (negative foo) j) = .lt := by
  induction a with
  | zero =>
    obtain ⟨l, hl⟩ := exists_chained_negative_eq foo j
    rw [hl]
    exact compare_cons_of_lt (by decide) _ _
  | succ a ih =>
    rw [List.replicate_succ, List.replicate_succ, List.cons_append, List.cons_append,
      compare_cons_self]
    exact ih

/-- Where `nofoo` comes before `foo`, all that leads to `--nofoo` comes before `--foo`. -/
theorem Feeds.lt_double (h : compare (negative foo) foo = .lt) {name : List UInt8}
    (hfeeds : Feeds (negative foo) name) : compare name (double foo) = .lt := by
  obtain ⟨a, j, rfl⟩ := hfeeds
  rcases a with - | a
  · have hchained : ∀ j, compare (chained (negative foo) j) foo = .lt := by
      intro j
      induction j with
      | zero => exact h
      | succ j ih => exact Std.TransCmp.lt_trans (compare_chained_succ h j) ih
    exact (compare_double _ _).trans (hchained j)
  · obtain ⟨c, f, rfl, hc⟩ := exists_cons_of_negative_lt h
    rw [double, List.replicate_succ, List.replicate_succ, List.replicate_succ, List.cons_append,
      List.cons_append, List.cons_append, compare_cons_self, compare_cons_self]
    exact compare_cons_of_lt hc _ _

/-- A name that feeds `--nofoo` gives `-foo`, or one further behind that feeds it, too. -/
theorem Feeds.gives (h : compare (negative foo) foo = .lt) {name : List UInt8}
    (hfeeds : Feeds (negative foo) name) : Gives name (single foo) ∨
      ∃ s, Gives name s ∧ Feeds (negative foo) s ∧ compare name s = .lt := by
  obtain ⟨a, j, rfl⟩ := hfeeds
  rcases a with - | a
  · rcases j with - | j
    · exact .inl (.both foo)
    · refine .inr ⟨double (chained (negative foo) j), .both _, ⟨0, j, rfl⟩, ?_⟩
      exact (compare_double _ _).trans (compare_chained_succ h j)
  · refine .inr ⟨List.replicate (a + 2) 0x2d ++ chained (negative foo) j, ?_, ⟨a, j, rfl⟩,
      compare_replicate_succ foo (a + 2) j⟩
    rw [List.replicate_succ, List.replicate_succ, List.replicate_succ]
    exact .dash _

theorem ComesToNegative.round (hlt : compare (negative foo) foo = .lt)
    (h : ComesToNegative foo cursor m) (hnext : Sweep.next cursor m = some e) :
    ComesToNegative foo (some e.1) (normalizeEntry m e) := by
  rcases h with hmem | ⟨name, hname, hbehind, hfeeds⟩
  · exact .inl (mem_normalizeEntry.2 (.inl hmem))
  rcases (Sweep.next_eq_some hnext).2.2 name hname hbehind with rfl | hahead
  · rcases hfeeds.gives hlt with hgives | ⟨s, hgives, hs, hless⟩
    · exact .inl (mem_normalizeEntry.2 (.inr hgives))
    · exact .inr ⟨s, mem_normalizeEntry.2 (.inr hgives), Sweep.behind_some.2 hless, hs⟩
  · exact .inr ⟨name, mem_normalizeEntry.2 (.inl hname), Sweep.behind_some.2 hahead, hfeeds⟩

/-- Where the loop is at `--foo`, there is a value for `-foo`. -/
theorem ComesToNegative.mem (hlt : compare (negative foo) foo = .lt)
    (h : ComesToNegative foo cursor m) (hnext : Sweep.next cursor m = some e)
    (he : e.1 = double foo) : single foo ∈ m := by
  rcases h with hmem | ⟨name, hname, hbehind, hfeeds⟩
  · exact hmem
  have hfront := hfeeds.lt_double hlt
  rcases (Sweep.next_eq_some hnext).2.2 name hname hbehind with rfl | hahead
  · rw [he] at hfront
    exact absurd hfront (Sweep.compare_asymm hfront)
  · rw [he] at hahead
    exact absurd hfront (Sweep.compare_asymm hahead)

/-! ## What the positive form does not change -/

/-- The maps differ in the value of `--foo` only. -/
structure DifferIn (foo : List UInt8) (m₁ m₂ : SettingsMap) : Prop where
  getElem?_eq : ∀ name, name ≠ double foo → m₁[name]? = m₂[name]?
  left : double foo ∈ m₁
  right : double foo ∈ m₂

section

variable {m₁ m₂ : SettingsMap} {name : List UInt8}

theorem DifferIn.mem_iff (h : DifferIn foo m₁ m₂) (name : List UInt8) : name ∈ m₁ ↔ name ∈ m₂ := by
  by_cases hname : name = double foo
  · rw [hname]
    exact iff_of_true h.left h.right
  · rw [← Std.TreeMap.isSome_getElem?_iff_mem, h.getElem?_eq name hname,
      Std.TreeMap.isSome_getElem?_iff_mem]

theorem DifferIn.insertIfNew (h : DifferIn foo m₁ m₂) {v₁ v₂ : List UInt8}
    (hv : name ∈ m₁ ∨ v₁ = v₂) :
    DifferIn foo (m₁.insertIfNew name v₁) (m₂.insertIfNew name v₂) := by
  refine ⟨fun s hs ↦ ?_, mem_insertIfNew.2 (.inr h.left), mem_insertIfNew.2 (.inr h.right)⟩
  by_cases hname : s = name
  · subst hname
    by_cases hmem : s ∈ m₁
    · rw [getElem?_insertIfNew_of_mem hmem, getElem?_insertIfNew_of_mem ((h.mem_iff s).1 hmem),
        h.getElem?_eq s hs]
    · rw [getElem?_insertIfNew_self hmem, getElem?_insertIfNew_self (mt (h.mem_iff s).2 hmem),
        hv.resolve_left hmem]
  · rw [getElem?_insertIfNew_of_ne hname, getElem?_insertIfNew_of_ne hname, h.getElem?_eq s hs]

theorem DifferIn.interpretNegativeSetting (h : DifferIn foo m₁ m₂) (name : List UInt8) :
    DifferIn foo (Bws.interpretNegativeSetting name m₁) (Bws.interpretNegativeSetting name m₂) := by
  rw [Bws.interpretNegativeSetting, Bws.interpretNegativeSetting, ascii_dash_no]
  split_ifs with hname
  · obtain ⟨y, rfl⟩ := hname
    have hbool : getBoolArg m₁ ([0x2d, 0x6e, 0x6f] ++ y) false =
        getBoolArg m₂ ([0x2d, 0x6e, 0x6f] ++ y) false := by
      rw [getBoolArg, getBoolArg, h.getElem?_eq _ (fun heq ↦ by cases heq)]
    rw [hbool]
    exact h.insertIfNew (.inr rfl)
  · exact h

/-- A round for the same name; the value of `--foo` goes nowhere when `-foo` has one. -/
theorem DifferIn.normalizeEntry (h : DifferIn foo m₁ m₂) {v₁ v₂ : List UInt8}
    (hv : name = double foo ∧ single foo ∈ m₁ ∨ v₁ = v₂) :
    DifferIn foo (Bws.normalizeEntry m₁ (name, v₁)) (Bws.normalizeEntry m₂ (name, v₂)) := by
  rw [Bws.normalizeEntry, Bws.normalizeEntry, ascii_dashes]
  split_ifs with hname
  · refine (h.insertIfNew (hv.imp_left ?_)).interpretNegativeSetting _
    rintro ⟨rfl, hmem⟩
    exact hmem
  · exact h.interpretNegativeSetting _

end

/-- The negation gives `-foo` its value whatever that of `--foo` is. -/
theorem getElem?_eq_of_differIn (hlt : compare (negative foo) foo = .lt)
    {m₁ m₂ m₁' m₂' : SettingsMap} (h₁ : Sweep.Sweeps normalizeEntry none m₁ m₁')
    (h₂ : Sweep.Sweeps normalizeEntry none m₂ m₂') (hdiffer : DifferIn foo m₁ m₂)
    (hcomes : ComesToNegative foo none m₁) : m₁'[single foo]? = m₂'[single foo]? := by
  have hne : single foo ≠ double foo := fun h ↦
    List.cons_ne_self _ _ (List.tail_eq_of_cons_eq h).symm
  have hround : ∀ cursor m₁ m₂ name v₁ v₂,
      DifferIn foo m₁ m₂ ∧ ComesToNegative foo cursor m₁ →
      Sweep.next cursor m₁ = some (name, v₁) → Sweep.next cursor m₂ = some (name, v₂) →
      DifferIn foo (normalizeEntry m₁ (name, v₁)) (normalizeEntry m₂ (name, v₂)) ∧
        ComesToNegative foo (some name) (normalizeEntry m₁ (name, v₁)) := by
    rintro cursor m₁ m₂ name v₁ v₂ ⟨hdiffer, hcomes⟩ hnext₁ hnext₂
    refine ⟨hdiffer.normalizeEntry ?_, hcomes.round hlt hnext₁⟩
    by_cases hname : name = double foo
    · exact .inl ⟨hname, hcomes.mem hlt hnext₁ hname⟩
    · right
      have hget₁ := (Sweep.next_eq_some hnext₁).1
      have hget₂ := (Sweep.next_eq_some hnext₂).1
      rw [hdiffer.getElem?_eq name hname, hget₂] at hget₁
      exact (Option.some.inj hget₁).symm
  obtain ⟨-, hend, -⟩ := h₁.simulation (fun _ _ _ h ↦ h.1.mem_iff) hround h₂ ⟨hdiffer, hcomes⟩
  exact hend.getElem?_eq _ hne

/-! ## Without a positive form -/

theorem boolOf_boolText (b : Bool) : boolOf (boolText b) = b := by
  cases b <;> decide

/-- `-foo` has the negated value of `-nofoo`, or the loop comes to one that gives it that value. -/
def TakesNegation (foo : List UInt8) (cursor : Option (List UInt8)) (m : SettingsMap) : Prop :=
  (∃ b, m[single (negative foo)]? = some b ∧ m[single foo]? = some (boolText !boolOf b)) ∨
    single foo ∉ m ∧ ∃ name ∈ m, Sweep.behind cursor name = true ∧
      (name = single (negative foo) ∨ name = double (negative foo))

theorem TakesNegation.round (h : TakesNegation foo cursor m) (hfed : NotFed foo cursor m)
    (hnext : Sweep.next cursor m = some e) :
    TakesNegation foo (some e.1) (normalizeEntry m e) := by
  obtain ⟨name, v⟩ := e
  have hmem := Sweep.mem_of_next_eq_some hnext
  rcases h with ⟨b, hb, hsingle⟩ | ⟨hnot, name', hname', hbehind, hforms⟩
  · left
    refine ⟨b, ?_, ?_⟩
    · rw [getElem?_normalizeEntry_of_mem (mem_of_getElem? hb), hb]
    · rw [getElem?_normalizeEntry_of_mem (mem_of_getElem? hsingle), hsingle]
  by_cases hname : name = single (negative foo) ∨ name = double (negative foo)
  · exact .inl (getElem?_normalizeEntry_negative hnot (hname.imp_left fun h ↦ ⟨h, hmem⟩))
  · right
    rcases (Sweep.next_eq_some hnext).2.2 name' hname' hbehind with rfl | hahead
    · exact absurd hforms hname
    refine ⟨fun hgiven ↦ ?_, name', mem_normalizeEntry.2 (.inl hname'),
      Sweep.behind_some.2 hahead, hforms⟩
    rcases (mem_normalizeEntry.1 hgiven).resolve_left hnot |>.single_cases with heq | heq
    · obtain rfl : name = double foo := heq
      exact hfed _ hmem (Sweep.next_eq_some hnext).2.1 (feeds_double foo)
    · exact hname heq

end

/-! ## The arguments -/

section

variable {name v s : List UInt8} {names args : List (List UInt8)}

theorem splitArg_append (h : (0x3d : UInt8) ∉ name) (v : List UInt8) :
    splitArg (name ++ 0x3d :: v) = (name, v) := by
  have hall : ∀ c ∈ name, decide (c ≠ 0x3d) = true := by
    rintro c hc
    rw [decide_eq_true_iff]
    rintro rfl
    exact h hc
  rw [splitArg, List.takeWhile_append_of_pos hall, List.dropWhile_append_of_pos hall]
  simp

/-- An option begins with a dash, and its name has no `=`. -/
theorem of_mem_optionNames (h : name ∈ optionNames args) :
    name.head? = some 0x2d ∧ (0x3d : UInt8) ∉ name := by
  obtain ⟨option, hoption, rfl⟩ := List.mem_map.1 h
  have hdash := List.mem_takeWhile_imp hoption
  obtain ⟨str, -, rfl⟩ := List.mem_map.1 ((List.takeWhile_sublist _).subset hoption)
  refine ⟨of_decide_eq_true hdash, fun hmem ↦ ?_⟩
  have hne : decide ((0x3d : UInt8) ≠ 0x3d) = true :=
    List.mem_takeWhile_imp (p := fun c ↦ decide (c ≠ 0x3d)) hmem
  exact of_decide_eq_true hne rfl

/-- The arguments with these names and values. -/
def argsOf (value : List UInt8 → List UInt8) (names : List (List UInt8)) : List (List UInt8) :=
  names.map fun name ↦ name ++ 0x3d :: value name

theorem optionsOf_argsOf (value : List UInt8 → List UInt8)
    (h : ∀ name ∈ names, name.head? = some 0x2d ∧ (0x3d : UInt8) ∉ name) :
    optionsOf (argsOf value names) = names.map fun name ↦ (name, value name) := by
  have hsplit : (argsOf value names).map splitArg = names.map fun name ↦ (name, value name) := by
    rw [argsOf, List.map_map]
    exact List.map_congr_left fun name hname ↦ splitArg_append (h name hname).2 _
  rw [optionsOf, hsplit, List.takeWhile_eq_self_iff]
  intro option hoption
  obtain ⟨name, hname, rfl⟩ := List.mem_map.1 hoption
  exact decide_eq_true (h name hname).1

theorem mem_foldl_insert (options : List (List UInt8 × List UInt8)) (m : SettingsMap) :
    s ∈ options.foldl (fun m option ↦ m.insert option.1 option.2) m ↔
      s ∈ m ∨ s ∈ options.map Prod.fst := by
  induction options generalizing m with
  | nil => exact (or_iff_left List.not_mem_nil).symm
  | cons option options ih =>
    rw [List.foldl_cons, ih, Std.TreeMap.mem_insert, Std.compare_eq_iff_eq, List.map_cons,
      List.mem_cons, or_assoc, or_left_comm, eq_comm]

theorem mem_settingsOf : s ∈ settingsOf args ↔ s ∈ optionNames args := by
  rw [settingsOf, mem_foldl_insert]
  exact or_iff_right Std.TreeMap.not_mem_emptyc

theorem getElem?_foldl_insert (value : List UInt8 → List UInt8) (names : List (List UInt8))
    (m : SettingsMap) :
    ((names.map fun name ↦ (name, value name)).foldl
        (fun m option ↦ m.insert option.1 option.2) m)[s]? =
      if s ∈ names then some (value s) else m[s]? := by
  induction names generalizing m with
  | nil => exact (if_neg List.not_mem_nil).symm
  | cons name names ih =>
    rw [List.map_cons, List.foldl_cons, ih, Std.TreeMap.getElem?_insert]
    by_cases hname : s = name
    · subst hname
      rw [if_pos List.mem_cons_self, if_pos (Std.compare_eq_iff_eq.2 rfl), ite_self]
    · have hmem : s ∈ name :: names ↔ s ∈ names :=
        List.mem_cons.trans (or_iff_right hname)
      rw [if_neg fun heq ↦ hname (Std.compare_eq_iff_eq.1 heq).symm]
      simp only [hmem]

theorem getElem?_settingsOf_argsOf (value : List UInt8 → List UInt8)
    (h : ∀ name ∈ names, name.head? = some 0x2d ∧ (0x3d : UInt8) ∉ name) :
    (settingsOf (argsOf value names))[s]? = if s ∈ names then some (value s) else none := by
  rw [settingsOf, optionsOf_argsOf value h, getElem?_foldl_insert]
  rfl

/-! ## The loop ends -/

theorem Gives.exists_suffix (h : Gives name s) : ∃ y, s = single y ∧ y <:+ name.tail := by
  cases h with
  | dash y => exact ⟨y, rfl, List.suffix_cons _ _⟩
  | no y => exact ⟨y, rfl, (List.suffix_cons _ _).trans (List.suffix_cons _ _)⟩
  | both y =>
    exact ⟨y, rfl, ((List.suffix_cons _ _).trans (List.suffix_cons _ _)).trans
      (List.suffix_cons _ _)⟩

theorem mem_possibleNames : s ∈ possibleNames names ↔
    ∃ name ∈ names, s = name ∨ ∃ y, y <:+ name ∧ single y = s := by
  rw [possibleNames, List.mem_flatMap]
  refine exists_congr fun name ↦ and_congr_right fun _ ↦ ?_
  rw [List.mem_cons, List.mem_map]
  exact or_congr_right (exists_congr fun y ↦ and_congr_left' (List.mem_tails y name))

theorem possibleNames_of_gives (hname : name ∈ possibleNames names) (h : Gives name s) :
    s ∈ possibleNames names := by
  obtain ⟨y, rfl, hy⟩ := h.exists_suffix
  obtain ⟨given, hgiven, rfl | ⟨u, hu, rfl⟩⟩ := mem_possibleNames.1 hname
  · exact mem_possibleNames.2 ⟨_, hgiven, .inr ⟨y, hy.trans (List.tail_suffix _), rfl⟩⟩
  · exact mem_possibleNames.2 ⟨_, hgiven, .inr ⟨y, hy.trans hu, rfl⟩⟩

/-- **The second loop ends**: there is fuel enough for all names that can be in the map. -/
theorem sweeps_parseParameters (args : List (List UInt8)) :
    Sweep.Sweeps normalizeEntry none (settingsOf args) (parseParameters args) := by
  refine Sweep.sweeps_sweep (S := (possibleNames (optionNames args)).toFinset) ?_ ?_ ?_
  · intro m e hm he s hs
    rcases mem_normalizeEntry.1 hs with hs | hgives
    · exact hm s hs
    · exact List.mem_toFinset.2 (possibleNames_of_gives (List.mem_toFinset.1 (hm _ he)) hgives)
  · intro s hs
    exact List.mem_toFinset.2 (mem_possibleNames.2 ⟨s, mem_settingsOf.1 hs, .inl rfl⟩)
  · exact Nat.lt_succ_of_le ((Finset.card_filter_le _ _).trans (List.toFinset_card_le _))

end

/-! ## Which form decides -/

section

variable {foo : List UInt8} {args : List (List UInt8)}

/-- The value of an option that is given stays. -/
theorem getElem?_parseParameters_of_mem {s v : List UInt8} (h : (settingsOf args)[s]? = some v) :
    (parseParameters args)[s]? = some v := by
  have hround : ∀ (cursor : Option (List UInt8)) (m : SettingsMap) e, m[s]? = some v →
      Sweep.next cursor m = some e → (normalizeEntry m e)[s]? = some v := by
    intro cursor m e hm _
    rw [getElem?_normalizeEntry_of_mem (mem_of_getElem? hm), hm]
  obtain ⟨-, hend, -⟩ := (sweeps_parseParameters args).invariant hround h
  exact hend

theorem getBoolArg_of_getElem? {m : SettingsMap} {s v : List UInt8} (h : m[s]? = some v)
    (fDefault : Bool) : getBoolArg m s fDefault = boolOf v := by
  rw [getBoolArg, h]

theorem positiveDecides_of (h : PositiveFirst foo (optionNames args)) :
    PositiveDecides foo args := by
  intro v hv fDefault
  apply getBoolArg_of_getElem?
  cases hsingle : (settingsOf args)[single foo]? with
  | some v' =>
    rw [hsingle, Option.some_or, Option.mem_some_iff] at hv
    exact getElem?_parseParameters_of_mem (hv ▸ hsingle)
  | none =>
    rw [hsingle, Option.none_or] at hv
    have hnot : single foo ∉ settingsOf args := by
      rw [← Std.TreeMap.isSome_getElem?_iff_mem, hsingle]
      exact Bool.false_ne_true
    have hfirst : compare foo (negative foo) = .lt ∨
        NotFed (negative foo) none (settingsOf args) := by
      rcases h with hmem | hmem | hlt | hfed
      · exact absurd (mem_settingsOf.2 hmem) hnot
      · exact absurd (mem_settingsOf.1 (mem_of_getElem? hv)) hmem
      · exact .inl hlt
      · exact .inr fun name hname _ ↦ hfed name (mem_settingsOf.1 hname)
    have hstart : TakesPositive foo v none (settingsOf args) :=
      ⟨hv, .inr ⟨hnot, rfl, hfirst⟩⟩
    obtain ⟨cursor, ⟨hdouble, hend⟩, hleft⟩ := (sweeps_parseParameters args).invariant
      (fun _ _ _ hm hnext ↦ hm.round hnext) hstart
    rcases hend with hend | ⟨-, hbehind, -⟩
    · exact hend
    · exact absurd hbehind (hleft _ (mem_of_getElem? hdouble))

/-- Without a positive form, and where the loop does not come to one, `-foo` is the opposite of
`-nofoo`. -/
theorem getBoolArg_negative (hsingle : single foo ∉ optionNames args)
    (hfed : ∀ name ∈ optionNames args, ¬ Feeds foo name)
    (hgiven : single (negative foo) ∈ optionNames args ∨
      double (negative foo) ∈ optionNames args) (fDefault : Bool) :
    getBoolArg (parseParameters args) (single foo) fDefault =
      !getBoolArg (parseParameters args) (single (negative foo)) fDefault := by
  have hstart : TakesNegation foo none (settingsOf args) ∧ NotFed foo none (settingsOf args) := by
    refine ⟨.inr ⟨mt mem_settingsOf.1 hsingle, ?_⟩, fun name hname _ ↦
      hfed name (mem_settingsOf.1 hname)⟩
    rcases hgiven with hgiven | hgiven
    · exact ⟨_, mem_settingsOf.2 hgiven, rfl, .inl rfl⟩
    · exact ⟨_, mem_settingsOf.2 hgiven, rfl, .inr rfl⟩
  obtain ⟨cursor, ⟨hend, -⟩, hleft⟩ := (sweeps_parseParameters args).invariant
    (I := fun cursor m ↦ TakesNegation foo cursor m ∧ NotFed foo cursor m)
    (fun _ _ _ hm hnext ↦ ⟨hm.1.round hm.2 hnext, hm.2.round hnext⟩) hstart
  rcases hend with ⟨b, hb, hvalue⟩ | ⟨-, name, hname, hbehind, -⟩
  · rw [getBoolArg_of_getElem? hb, getBoolArg_of_getElem? hvalue, boolOf_boolText]
  · exact absurd hbehind (hleft name hname)

/-- One of `foo` and `nofoo` comes first. -/
theorem negative_lt_of_not_lt (h : compare foo (negative foo) ≠ .lt) :
    compare (negative foo) foo = .lt := by
  have hswap : compare (negative foo) foo = (compare foo (negative foo)).swap :=
    Std.OrientedCmp.eq_swap
  cases hcompare : compare foo (negative foo) with
  | lt => exact absurd hcompare h
  | eq =>
    have hlen := congrArg List.length (Std.compare_eq_iff_eq.1 hcompare)
    simp only [negative, List.length_cons] at hlen
    omega
  | gt =>
    rw [hswap, hcompare]
    rfl

/-- The value `v` for `--foo`, and an empty one for every other option. -/
def onlyDouble (foo v name : List UInt8) : List UInt8 := if name = double foo then v else []

/-- Where the negation comes first, there are values for which the positive form is not heard. -/
theorem not_positiveDecides (h : ¬ PositiveFirst foo (optionNames args)) :
    ∃ args', optionNames args' = optionNames args ∧ ¬ PositiveDecides foo args' := by
  rw [PositiveFirst, not_or, not_or, not_or, not_not] at h
  obtain ⟨hsingle, hdouble, hcompare, hfeeds⟩ := h
  simp only [not_forall, not_not] at hfeeds
  obtain ⟨name, hname, hfeeds⟩ := hfeeds
  have hoptions : ∀ name ∈ optionNames args, name.head? = some 0x2d ∧ (0x3d : UInt8) ∉ name :=
    fun _ ↦ of_mem_optionNames
  have hnames : ∀ v, optionNames (argsOf (onlyDouble foo v) (optionNames args)) =
      optionNames args := by
    intro v
    rw [optionNames, optionsOf_argsOf _ hoptions, List.map_map]
    exact List.map_id' _
  have hget : ∀ v s, (settingsOf (argsOf (onlyDouble foo v) (optionNames args)))[s]? =
      if s ∈ optionNames args then some (onlyDouble foo v s) else none :=
    fun v _ ↦ getElem?_settingsOf_argsOf (onlyDouble foo v) hoptions
  have hmem : ∀ v, ∀ s ∈ optionNames args,
      s ∈ settingsOf (argsOf (onlyDouble foo v) (optionNames args)) := fun v s hs ↦
    mem_settingsOf.2 ((hnames v).symm ▸ hs)
  have hdiffer : DifferIn foo (settingsOf (argsOf (onlyDouble foo []) (optionNames args)))
      (settingsOf (argsOf (onlyDouble foo (ascii "0")) (optionNames args))) := by
    refine ⟨fun s hs ↦ ?_, hmem _ _ hdouble, hmem _ _ hdouble⟩
    rw [hget, hget, onlyDouble, onlyDouble, if_neg hs, if_neg hs]
  have hsame := getElem?_eq_of_differIn (negative_lt_of_not_lt hcompare)
    (sweeps_parseParameters _) (sweeps_parseParameters _) hdiffer
    (.inr ⟨name, hmem _ _ hname, rfl, hfeeds⟩)
  have hgiven : ∀ v, v ∈ (settingsOf (argsOf (onlyDouble foo v) (optionNames args)))[single foo]?.or
      (settingsOf (argsOf (onlyDouble foo v) (optionNames args)))[double foo]? := by
    intro v
    rw [hget, hget, if_neg hsingle, if_pos hdouble, Option.none_or]
    exact congrArg some (if_pos rfl)
  by_contra hall
  simp only [not_exists, not_and, not_not] at hall
  have htrue := hall _ (hnames []) [] (hgiven []) true
  have hfalse := hall _ (hnames (ascii "0")) (ascii "0") (hgiven (ascii "0")) true
  rw [getBoolArg, hsame, ← getBoolArg, hfalse] at htrue
  exact absurd htrue (by decide)

end

/-- **The positive form decides, whatever the values are, if and only if it comes first**: it is
given with a single dash, or not with two dashes, or `foo` comes before `nofoo`, or the loop does
not come to `--nofoo`.  Where no positive form is given, and the loop does not come to one, the
negation decides. -/
theorem positive_decides_iff (foo : List UInt8) (args : List (List UInt8)) :
    ((∀ args', optionNames args' = optionNames args → PositiveDecides foo args') ↔
      PositiveFirst foo (optionNames args)) ∧
    (single foo ∉ optionNames args → (∀ name ∈ optionNames args, ¬ Feeds foo name) →
      single (negative foo) ∈ optionNames args ∨ double (negative foo) ∈ optionNames args →
      ∀ fDefault, getBoolArg (parseParameters args) (single foo) fDefault =
        !getBoolArg (parseParameters args) (single (negative foo)) fDefault) := by
  refine ⟨⟨fun h ↦ ?_, fun h args' hargs' ↦ positiveDecides_of (hargs' ▸ h)⟩,
    fun hsingle hfed hgiven ↦ getBoolArg_negative hsingle hfed hgiven⟩
  by_contra hfirst
  obtain ⟨args', hargs', hnot⟩ := not_positiveDecides hfirst
  exact hnot (h args' hargs')

/-- `foo` comes before `nofoo`. -/
theorem positive_decides_iff_sample :
    PositiveDecides (ascii "foo") [ascii "--nofoo", ascii "--foo"] ∧
      getBoolArg (parseParameters [ascii "-nofoo=0"]) (single (ascii "foo")) false =
        !getBoolArg (parseParameters [ascii "-nofoo=0"]) (single (negative (ascii "foo")))
          false := by
  have hnames : optionNames [ascii "-nofoo=0"] = [single (negative (ascii "foo"))] := by decide
  constructor
  · exact (positive_decides_iff (ascii "foo") [ascii "--nofoo", ascii "--foo"]).1.2
      (.inr (.inr (.inl (by decide)))) _ rfl
  · refine (positive_decides_iff (ascii "foo") [ascii "-nofoo=0"]).2 (by decide) ?_
      (.inl (by decide)) false
    rw [hnames]
    rintro name hname ⟨a, j, hfeeds⟩
    rw [List.mem_singleton.1 hname, List.replicate_succ, List.replicate_succ] at hfeeds
    exact absurd (List.head_eq_of_cons_eq (List.tail_eq_of_cons_eq hfeeds)) (by decide)

/-- `zoo` comes behind `nozoo`: the value of `-zoo` is the opposite of that of `--nozoo`. -/
theorem not_positiveDecides_zoo :
    getBoolArg (parseParameters [ascii "--zoo", ascii "--nozoo"]) (single (ascii "zoo")) true =
        false ∧
      ¬ PositiveDecides (ascii "zoo") [ascii "--zoo", ascii "--nozoo"] := by
  have hfalse : getBoolArg (parseParameters [ascii "--zoo", ascii "--nozoo"])
      (single (ascii "zoo")) true = false := by decide +kernel
  have hgiven : (settingsOf [ascii "--zoo", ascii "--nozoo"])[single (ascii "zoo")]?.or
      (settingsOf [ascii "--zoo", ascii "--nozoo"])[double (ascii "zoo")]? = some [] := by
    decide +kernel
  refine ⟨hfalse, fun h ↦ ?_⟩
  have htrue := h [] hgiven true
  rw [hfalse] at htrue
  exact absurd htrue (by decide)

end Bws
