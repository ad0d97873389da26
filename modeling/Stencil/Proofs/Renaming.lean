import Mathlib.Data.List.Forall2
import Mathlib.Data.List.Nodup
import Stencil.Proofs.Match.Selection
import Stencil.Proofs.Pattern.Holes
import Stencil.Proofs.Rule

/-!
# Renaming

Names do nothing but tell holes apart.  Under other names, as long as no two become
one, a pattern finds the same matches with the same texts bound, and the template
that is renamed with it rewrites them to the same text.
-/

namespace Stencil

/-! ## Other names -/

section

variable (f : String → String)

def Hole.rename (h : Hole) : Hole := { h with name := f h.name }

def Pattern.rename (p : Pattern) : Pattern := p.mapHoles (Hole.rename f)

def State.rename (s : State) : State :=
  { s with bindings := s.bindings.map fun (name, range) => (f name, range) }

def Alignment.rename (a : Alignment) : Alignment :=
  { a with bindings := a.bindings.map fun (name, range) => (f name, range) }

def UnboundHole.rename (e : UnboundHole) : UnboundHole := { e with name := f e.name }

/-- The same text is matched, and what was bound to one of the names is bound to its new
name. -/
structure Match.Renamed (names : List String) (m m' : Match) : Prop where
  span_eq : m'.span = m.span
  find?_iff : ∀ name c, m'.captures.find? name = some c ↔
    ∃ old ∈ names, f old = name ∧ m.captures.find? old = some c

end

/-- No two of the names become one. -/
def Distinguishes (f : String → String) (names : List String) : Prop :=
  ∀ x ∈ names, ∀ y ∈ names, f x = f y → x = y

instance (f : String → String) (names : List String) : Decidable (Distinguishes f names) :=
  inferInstanceAs (Decidable (∀ x ∈ names, ∀ y ∈ names, f x = f y → x = y))

section

variable {v : Vocabulary} {t : Target} {f : String → String} {names : List String} {s : State}
  {instr : Instr} {program : List Instr} {p : Pattern} {i : Nat} {a : Alignment}

/-! ## The search -/

@[simp] theorem State.position_rename (f : String → String) (s : State) :
    (s.rename f).position = s.position := rfl

@[simp] theorem State.scopes_rename (f : String → String) (s : State) :
    (s.rename f).scopes = s.scopes := rfl

@[simp] theorem State.limit_rename (f : String → String) (s : State) (t : Target) :
    (s.rename f).limit t = s.limit t := rfl

theorem State.lookup_rename (hf : Distinguishes f names)
    (hbound : ∀ entry ∈ s.bindings, entry.1 ∈ names) {name : String} (hname : name ∈ names) :
    (s.rename f).bindings.lookup (f name) = s.bindings.lookup name :=
  lookup_map_fst fun entry hentry => hf _ (hbound entry hentry) _ hname

/-- The step: a renamed instruction leads from a renamed state to the renamed states. -/
theorem successors_rename (hf : Distinguishes f names)
    (hbound : ∀ entry ∈ s.bindings, entry.1 ∈ names)
    (hinstr : ∀ h, instr = .hole h → h.name ∈ names) :
    successors v t (instr.mapHole (Hole.rename f)) (s.rename f) =
      (successors v t instr s).map (State.rename f) := by
  cases instr with
  | text segs =>
      simp only [Instr.mapHole, successors, State.limit_rename, State.position_rename]
      split <;> rfl
  | enter =>
      simp only [Instr.mapHole, successors, State.limit_rename, State.position_rename,
        State.scopes_rename, apply_ite (List.map (State.rename f))]
      rfl
  | leave =>
      simp only [Instr.mapHole, successors, State.scopes_rename, State.position_rename,
        apply_ite (List.map (State.rename f))]
      rfl
  | hole h =>
      have hlookup := State.lookup_rename hf hbound (hinstr h rfl)
      simp only [Instr.mapHole, Hole.rename, successors, State.limit_rename,
        State.position_rename, hlookup]
      split
      · split <;> rfl
      · rw [List.map_map]
        rfl

theorem names_of_mem_successors {s' : State} (hs' : s' ∈ successors v t instr s)
    (hbound : ∀ entry ∈ s.bindings, entry.1 ∈ names)
    (hinstr : ∀ h, instr = .hole h → h.name ∈ names) :
    ∀ entry ∈ s'.bindings, entry.1 ∈ names := by
  rcases bindings_of_mem_successors hs' with hsame | ⟨h, stop, rfl, _, rfl⟩
  · rwa [hsame]
  · exact List.forall_mem_cons.mpr ⟨hinstr h rfl, hbound⟩

/-- The run: names that are told apart may change all along the way. -/
theorem outcomes_rename (hf : Distinguishes f names)
    (hbound : ∀ entry ∈ s.bindings, entry.1 ∈ names)
    (hprogram : ∀ h, .hole h ∈ program → h.name ∈ names) :
    outcomes v t (program.map (Instr.mapHole (Hole.rename f))) (s.rename f) =
      (outcomes v t program s).map (State.rename f) := by
  induction program generalizing s with
  | nil => rfl
  | cons instr rest ih =>
      have hinstr : ∀ h, instr = .hole h → h.name ∈ names := by
        rintro h rfl
        exact hprogram h List.mem_cons_self
      have hrest : ∀ h, .hole h ∈ rest → h.name ∈ names :=
        fun h hmem => hprogram h (List.mem_cons_of_mem _ hmem)
      rw [List.map_cons, outcomes, outcomes, successors_rename hf hbound hinstr,
        List.flatMap_map, List.map_flatMap]
      exact List.flatMap_congr
        fun next hnext => ih (names_of_mem_successors hnext hbound hinstr) hrest

theorem align_rename (hf : Distinguishes f p.holeNames) (i : Nat) :
    align v t (p.rename f).program i = (align v t p.program i).map (Alignment.rename f) := by
  have hprogram : (p.rename f).program = p.program.map (Instr.mapHole (Hole.rename f)) :=
    p.program_mapHoles _
  have hnames : ∀ h, .hole h ∈ p.program → h.name ∈ p.holeNames :=
    fun _ => Pattern.mem_holeNames_of_mem_program
  have houtcomes : outcomes v t (p.rename f).program (.start i) =
      (outcomes v t p.program (.start i)).map (State.rename f) := by
    rw [hprogram]
    exact outcomes_rename hf (s := .start i) (by simp [State.start]) hnames
  rw [align_eq_head?, align_eq_head?, houtcomes, List.head?_map, Option.map_map, Option.map_map]
  rfl

theorem matchAt?_rename (hf : Distinguishes f p.holeNames) (i : Nat) :
    (Matcher.ofPattern v (p.rename f)).matchAt? t i =
      ((Matcher.ofPattern v p).matchAt? t i).map (Alignment.rename f) := by
  have hblank : startsBlank (p.rename f).program = startsBlank p.program := by
    rw [Matcher.startsBlank_program, Matcher.startsBlank_program, Pattern.rename,
      Matcher.beginsBlank_mapHoles]
  unfold Matcher.matchAt? Matcher.mayStart Matcher.ofPattern
  rw [hblank, align_rename hf]
  split
  · rw [Option.filter_map]
    rfl
  · rfl

theorem alignments_rename (hf : Distinguishes f p.holeNames) (overlapping : Bool) (i : Nat) :
    (Matcher.ofPattern v (p.rename f)).alignments t overlapping i =
      ((Matcher.ofPattern v p).alignments t overlapping i).map (Alignment.rename f) :=
  Matcher.alignments_map (f := Alignment.rename f) rfl (fun _ => rfl)
    (fun i _ => matchAt?_rename hf i) overlapping i

/-! ## Matches -/

theorem renamed_toMatch (hf : Distinguishes f p.holeNames)
    (hlays : Lays v t p t.size i [] a.last a.bindings) :
    Match.Renamed f p.holeNames (a.toMatch t) ((a.rename f).toMatch t) := by
  have hnodup : (a.bindings.map (·.1)).Nodup := hlays.nodup .nil
  have hnames : ∀ name ∈ a.bindings.map (·.1), name ∈ p.holeNames :=
    fun _ => hlays.mem_names_iff.mp
  have hnodup' : ((a.rename f).bindings.map (·.1)).Nodup := by
    have hmap : (a.rename f).bindings.map (·.1) = (a.bindings.map (·.1)).map f := by
      simp [Alignment.rename]
    rw [hmap]
    exact List.Nodup.map_on (fun x hx y hy => hf x (hnames x hx) y (hnames y hy)) hnodup
  refine ⟨rfl, fun name c => ?_⟩
  rw [Alignment.find?_captures hnodup', Option.map_eq_some_iff]
  simp only [Alignment.find?_captures hnodup, Option.map_eq_some_iff]
  constructor
  · rintro ⟨r, hr, rfl⟩
    obtain ⟨⟨old, r'⟩, hentry, heq⟩ := List.mem_map.mp (mem_of_lookup_eq_some hr)
    simp only [Prod.mk.injEq] at heq
    obtain ⟨rfl, rfl⟩ := heq
    exact ⟨old, hnames old (List.mem_map_of_mem hentry), rfl, r',
      lookup_eq_some_of_mem hnodup hentry, rfl⟩
  · rintro ⟨old, _, rfl, r, hr, rfl⟩
    have hmem : (f old, r) ∈ (a.rename f).bindings :=
      List.mem_map.mpr ⟨(old, r), mem_of_lookup_eq_some hr, rfl⟩
    exact ⟨r, lookup_eq_some_of_mem hnodup' hmem, rfl⟩

theorem Match.Renamed.find?_bindings (hf : Distinguishes f names) {m m' : Match}
    (h : Renamed f names m m') {name : String} (hname : name ∈ names) :
    m'.bindings.find? (f name) = m.bindings.find? name := by
  have hcaptures : m'.captures.find? (f name) = m.captures.find? name := by
    ext c
    rw [h.find?_iff]
    constructor
    · rintro ⟨old, hold, heq, hc⟩
      rwa [hf old hold name hname heq] at hc
    · exact fun hc => ⟨name, hname, rfl, hc⟩
  rw [bindings, bindings, NameMap.find?_map, NameMap.find?_map, hcaptures]

/-! ## Rewriting -/

variable {template : Pattern}

theorem Pattern.fill_rename {bindings bindings' : NameMap String}
    (h : ∀ hole ∈ template.holes,
      bindings'.find? (f hole.1.name) = bindings.find? hole.1.name) :
    (template.rename f).fill bindings' =
      (template.fill bindings).mapError (UnboundHole.rename f) := by
  unfold rename
  induction template with
  | nil => rfl
  | hole hole offset rest ih =>
      have hname : bindings'.find? (f hole.name) = bindings.find? hole.name :=
        h (hole, offset) List.mem_cons_self
      have hrest := ih fun other hother => h other (List.mem_cons_of_mem _ hother)
      rw [mapHoles, fill, fill, hrest, Hole.rename, hname]
      cases bindings.find? hole.name with
      | none => rfl
      | some value => cases rest.fill bindings <;> rfl
  | text content offset rest ih =>
      rw [mapHoles, fill, fill, ih h]
      cases rest.fill bindings <;> rfl
  | block offset body rest ihBody ihRest =>
      have hbody := ihBody fun hole hhole => h hole (List.mem_append_left _ hhole)
      have hrest := ihRest fun hole hhole => h hole (List.mem_append_right _ hhole)
      rw [mapHoles, fill, fill, hbody, hrest]
      cases body.fill bindings with
      | error e => rfl
      | ok inner => cases rest.fill bindings <;> rfl

theorem Pattern.rewriteFrom_rename (hf : Distinguishes f names)
    (htemplate : ∀ hole ∈ template.holes, hole.1.name ∈ names) {found found' : List Match}
    (hfound : List.Forall₂ (Match.Renamed f names) found found') (source : List Char)
    (cursor : Nat) :
    (template.rename f).rewriteFrom source cursor found' =
      (template.rewriteFrom source cursor found).mapError (UnboundHole.rename f) := by
  induction hfound generalizing cursor with
  | nil => rfl
  | @cons m m' found found' hm _ ih =>
      have hfill : (template.rename f).fill m'.bindings =
          (template.fill m.bindings).mapError (UnboundHole.rename f) :=
        fill_rename fun hole hhole => hm.find?_bindings hf (htemplate hole hhole)
      rw [rewriteFrom, rewriteFrom, hm.span_eq, hfill, ih, ih]
      split
      · rfl
      · cases template.fill m.bindings with
        | error e => rfl
        | ok replacement => cases template.rewriteFrom source m.span.stop found <;> rfl

theorem Pattern.exists_rewriteFrom {found : List Match}
    (h : ∀ m ∈ found, ∃ out, template.fill m.bindings = .ok out) (source : List Char)
    (cursor : Nat) : ∃ out, template.rewriteFrom source cursor found = .ok out := by
  induction found generalizing cursor with
  | nil => exact ⟨_, rfl⟩
  | cons m found ih =>
      obtain ⟨replacement, hfill⟩ := h m List.mem_cons_self
      have hrest := ih fun m' hm' => h m' (List.mem_cons_of_mem _ hm')
      unfold rewriteFrom
      split
      · exact hrest cursor
      · obtain ⟨after, hafter⟩ := hrest m.span.stop
        rw [hfill, hafter]
        exact ⟨_, rfl⟩

/-- Under other names a pattern finds the same matches, one after the other, with the
same captures under the new names, and a template whose holes it binds rewrites them to
the same text. -/
theorem findAll_rename {source : String} {tokens : List Target.Token}
    (ht : Target.ofTokens? source tokens = .ok t) (v : Vocabulary)
    (htemplate : template.unboundHoles p = []) (hf : Distinguishes f p.holeNames)
    (overlapping : Bool) :
    List.Forall₂ (Match.Renamed f p.holeNames) ((Matcher.ofPattern v p).findAll t overlapping)
        ((Matcher.ofPattern v (p.rename f)).findAll t overlapping) ∧
      ∃ out,
        template.rewriteAll source ((Matcher.ofPattern v p).findAll t overlapping) = .ok out ∧
        (template.rename f).rewriteAll source
          ((Matcher.ofPattern v (p.rename f)).findAll t overlapping) = .ok out := by
  have hT : t.Tiled := Target.tiled_of_ofTokens? ht
  have hN : t.Nested := Target.nested_of_ofTokens? ht
  have hholes := Pattern.mem_holeNames_of_unboundHoles htemplate
  have hmatches : List.Forall₂ (Match.Renamed f p.holeNames)
      ((Matcher.ofPattern v p).findAll t overlapping)
      ((Matcher.ofPattern v (p.rename f)).findAll t overlapping) := by
    unfold Matcher.findAll
    rw [alignments_rename hf, List.map_map, List.forall₂_map_left_iff,
      List.forall₂_map_right_iff, List.forall₂_same]
    intro a ha
    exact renamed_toMatch hf (Matcher.lays_of_mem_alignments hT hN ha).1
  have hfills : ∀ m ∈ (Matcher.ofPattern v p).findAll t overlapping,
      ∃ out, template.fill m.bindings = .ok out := by
    intro m hm
    obtain ⟨a, ha, rfl⟩ := List.mem_map.mp hm
    exact (Matcher.lays_of_mem_alignments hT hN ha).1.exists_fill hholes
  obtain ⟨out, hout⟩ := Pattern.exists_rewriteFrom hfills source.toList 0
  refine ⟨hmatches, String.ofList out, ?_, ?_⟩
  · rw [Pattern.rewriteAll, hout]
    rfl
  · rw [Pattern.rewriteAll, Pattern.rewriteFrom_rename hf hholes hmatches, hout]
    rfl

/-- The two names change places, so the map of captures has them the other way round. -/
theorem findAll_rename_swapped :
    ∃ t p template f,
      Target.ofTokens? "f(x, f) g(y, h) k(z, k)" (Target.scan "f(x, f) g(y, h) k(z, k)") = .ok t ∧
      Pattern.compile ":[a](:[b], :[a])" = .ok p ∧ Pattern.compile ":[b](:[a])" = .ok template ∧
      f "a" = "b" ∧ f "b" = "a" ∧ template.unboundHoles p = [] ∧ Distinguishes f p.holeNames ∧
      ((Matcher.ofPattern .builtin p).findAll t false).map (·.span) = [⟨0, 7⟩, ⟨16, 23⟩] ∧
      List.Forall₂ (Match.Renamed f p.holeNames) ((Matcher.ofPattern .builtin p).findAll t false)
        ((Matcher.ofPattern .builtin (p.rename f)).findAll t false) ∧
      (template.rename f).rewriteAll "f(x, f) g(y, h) k(z, k)"
        ((Matcher.ofPattern .builtin (p.rename f)).findAll t false) = .ok "x(f) g(y, h) z(k)" := by
  have hruns : (do
        let t ← (Target.tokenize "f(x, f) g(y, h) k(z, k)").toOption
        let p ← (Pattern.compile ":[a](:[b], :[a])").toOption
        let found := (Matcher.ofPattern .builtin p).findAll t false
        return (found.map (·.span), p.holeNames,
          (Pattern.compile ":[b](:[a])").toOption.map fun template =>
            (template.rewriteAll "f(x, f) g(y, h) k(z, k)" found).toOption)) =
      some ([⟨0, 7⟩, ⟨16, 23⟩], ["a", "b"], some (some "x(f) g(y, h) z(k)")) := by decide +kernel
  have hunbound : (do
        let p ← (Pattern.compile ":[a](:[b], :[a])").toOption
        let template ← (Pattern.compile ":[b](:[a])").toOption
        return template.unboundHoles p) = some [] := by decide +kernel
  obtain ⟨t, p, ht, hp, hruns⟩ := exists_ok_of_bind_toOption hruns
  obtain ⟨_, template, hpattern, htemplate, hunbound⟩ := exists_ok_of_bind_toOption hunbound
  obtain rfl := Except.ok.inj (hp.symm.trans hpattern)
  simp only [Prod.mk.injEq, htemplate, Except.toOption, Option.map_some, Option.some.injEq] at hruns
  obtain ⟨hspans, hnames, hrewrite⟩ := hruns
  have hf : Distinguishes (fun x => if x = "a" then "b" else "a") p.holeNames := by
    rw [hnames]
    decide
  obtain ⟨hmatches, out, hout, hrenamed⟩ := findAll_rename ht .builtin hunbound hf false
  obtain rfl : out = "x(f) g(y, h) z(k)" := by simpa [hout] using hrewrite
  exact ⟨t, p, template, _, ht, hp, htemplate, rfl, rfl, hunbound, hf, hspans, hmatches, hrenamed⟩

end

end Stencil
