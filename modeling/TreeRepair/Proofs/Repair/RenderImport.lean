import TreeRepair.Repair.Builtin
import TreeRepair.Syntax.Import

/-! Two readings of imports of the rendering library. Among the names that an import is reported to bind are those of
default, namespace and lists of names, but only a default or a namespace counts as binding the library. So the readings
agree on an import unless a list of names binds the name, and then the rule that imports the library imports it again. -/

set_option autoImplicit false

namespace TreeRepair

namespace ParsedUnit

/-- An import statement that is reported to import the name of the rendering library from it. -/
structure ImportsRender (u : ParsedUnit) (i : Nat) (c : ImportClause) : Prop where
  mem : i ∈ u.preorder
  statement : u.kind i = "import_statement"
  reported : u.import? i = some c
  library : c.specifier = renderLibrary
  bound : renderBinding ∈ c.names

/-- Whether an import statement binds a name to what it imports as a whole, that is, not in a list of names. -/
def BindsWhole (u : ParsedUnit) (i : Nat) (name : String) : Prop :=
  ∃ clause part, u.importClause? i = some clause ∧ part ∈ u.namedChildren clause ∧
    u.kind part ≠ "named_imports" ∧ name ∈ u.partNames part

variable {u : ParsedUnit} {i part : Nat} {c : ImportClause} {name : String}

/-! ## What is reported -/

theorem import?_of_statement (h : u.kind i = "import_statement") : u.import? i = u.staticImport? i := by
  rw [import?, if_pos h]

/-- An import statement is reported with its source and with the names of the parts of its clause. -/
theorem staticImport?_eq_some (h : u.staticImport? i = some c) :
    c.kind = .static ∧ (∃ source, u.childByField? i "source" = some source ∧ c.specifier = u.stringValue source) ∧
      ((u.importClause? i = none ∧ c.names = [] ∧ c.shape = .sideEffect) ∨
        ∃ clause, u.importClause? i = some clause ∧ c.names = (u.namedChildren clause).flatMap u.partNames ∧
          c.shape = u.clauseShape (u.namedChildren clause)) := by
  obtain ⟨source, hsource, rfl⟩ := Option.map_eq_some_iff.1 h
  cases hclause : u.importClause? i with
  | none => exact ⟨rfl, ⟨source, hsource, rfl⟩, .inl ⟨rfl, rfl, rfl⟩⟩
  | some clause => exact ⟨rfl, ⟨source, hsource, rfl⟩, .inr ⟨clause, rfl, rfl, rfl⟩⟩

namespace ImportsRender

variable (h : u.ImportsRender i c)

include h

theorem static : u.staticImport? i = some c := import?_of_statement h.statement ▸ h.reported

theorem mem_dependencies (resolve : String → String → Resolution) :
    ⟨c, resolve u.file c.specifier⟩ ∈ u.dependencies resolve :=
  List.mem_map.2 ⟨c, List.mem_filterMap.2 ⟨i, h.mem, h.reported⟩, rfl⟩

/-- A part of the clause binds the name. -/
theorem bindingPart : ∃ clause part, u.importClause? i = some clause ∧ part ∈ u.namedChildren clause ∧
    renderBinding ∈ u.partNames part ∧ c.shape = u.clauseShape (u.namedChildren clause) := by
  have hbound := h.bound
  obtain ⟨-, -, ⟨-, hnames, -⟩ | ⟨clause, hclause, hnames, hshape⟩⟩ := staticImport?_eq_some h.static
  · rw [hnames] at hbound
    cases hbound
  · rw [hnames] at hbound
    obtain ⟨part, hpart, hname⟩ := List.mem_flatMap.1 hbound
    exact ⟨clause, part, hclause, hpart, hname, hshape⟩

end ImportsRender

/-! ## What counts as a binding -/

theorem partBindsRender_iff :
    u.partBindsRender part = true ↔ u.kind part ≠ "named_imports" ∧ renderBinding ∈ u.partNames part := by
  rw [partBindsRender, partNames]
  by_cases hid : u.kind part = "identifier"
  · have hlist : u.kind part ≠ "named_imports" := hid ▸ by decide
    rw [if_pos hid, if_pos hid, beq_iff_eq, List.mem_singleton, eq_comm]
    exact (and_iff_right hlist).symm
  · rw [if_neg hid, if_neg hid]
    by_cases hspace : u.kind part = "namespace_import"
    · have hlist : u.kind part ≠ "named_imports" := hspace ▸ by decide
      rw [if_pos hspace, if_pos hspace, and_iff_right hlist, List.any_eq_true, List.mem_map]
      simp only [beq_iff_eq]
    · rw [if_neg hspace, if_neg hspace]
      by_cases hlist : u.kind part = "named_imports" <;> simp [hlist]

theorem importBindsRender_iff (hmem : i ∈ u.preorder) (hkind : u.kind i = "import_statement") :
    u.importBindsRender i = true ↔ (∃ c, u.ImportsRender i c) ∧ u.BindsWhole i renderBinding := by
  rw [importBindsRender]
  constructor
  · intro h
    cases hsource : u.childByField? i "source" with
    | none => simp [hsource] at h
    | some source =>
      cases hclause : u.importClause? i with
      | none => simp [hsource, hclause] at h
      | some clause =>
        simp only [hsource, hclause, Bool.and_eq_true, beq_iff_eq, Option.any_some, List.any_eq_true] at h
        obtain ⟨hlibrary, part, hpart, hbinds⟩ := h
        obtain ⟨hlist, hname⟩ := partBindsRender_iff.1 hbinds
        have hreported : u.import? i = some ⟨u.stringValue source, (u.namedChildren clause).flatMap u.partNames,
            u.clauseShape (u.namedChildren clause), .static, u.startLine i⟩ := by
          rw [import?_of_statement hkind, staticImport?, hsource, hclause]
          rfl
        exact ⟨⟨_, hmem, hkind, hreported, hlibrary, List.mem_flatMap.2 ⟨part, hpart, hname⟩⟩,
          clause, part, hclause, hpart, hlist, hname⟩
  · rintro ⟨⟨c, h⟩, clause, part, hclause, hpart, hlist, hname⟩
    obtain ⟨-, ⟨source, hsource, hspecifier⟩, -⟩ := staticImport?_eq_some h.static
    simp only [hsource, hclause, Bool.and_eq_true, beq_iff_eq, Option.any_some, List.any_eq_true]
    exact ⟨hspecifier ▸ h.library, part, hpart, partBindsRender_iff.2 ⟨hlist, hname⟩⟩

theorem bindsRenderLibrary_iff : u.bindsRenderLibrary = true ↔
    (∃ i c, u.ImportsRender i c ∧ u.BindsWhole i renderBinding) ∨
      ∃ call callee, (call, callee) ∈ u.calls ∧ u.requireBindsRender call callee = true := by
  rw [bindsRenderLibrary, Bool.or_eq_true, List.any_eq_true, List.any_eq_true]
  refine or_congr ⟨?_, ?_⟩ ⟨?_, ?_⟩
  · rintro ⟨i, hmem, h⟩
    rw [Bool.and_eq_true, beq_iff_eq] at h
    obtain ⟨⟨c, hc⟩, hwhole⟩ := (importBindsRender_iff hmem h.1).1 h.2
    exact ⟨i, c, hc, hwhole⟩
  · rintro ⟨i, c, hc, hwhole⟩
    refine ⟨i, hc.mem, ?_⟩
    rw [Bool.and_eq_true, beq_iff_eq]
    exact ⟨hc.statement, (importBindsRender_iff hc.mem hc.statement).2 ⟨⟨c, hc⟩, hwhole⟩⟩
  · exact fun ⟨⟨call, callee⟩, hmem, h⟩ => ⟨call, callee, hmem, h⟩
  · exact fun ⟨call, callee, hmem, h⟩ => ⟨(call, callee), hmem, h⟩

/-! ## Shapes -/

section Shapes

variable {parts : List Nat}

theorem clauseShape_eq_default (h : u.clauseShape parts = .default) : ∀ p ∈ parts, u.kind p ≠ "named_imports" := by
  intro p hp hlist
  have hany : parts.any (u.kind · == "named_imports") = true := List.any_eq_true.2 ⟨p, hp, by simp [hlist]⟩
  simp only [clauseShape, hany, Bool.true_or, if_true] at h
  split at h
  · cases h
  · split at h <;> cases h

theorem clauseShape_eq_named (h : u.clauseShape parts = .named) :
    ∀ p ∈ parts, u.kind p ≠ "identifier" ∧ u.kind p ≠ "namespace_import" := by
  rw [clauseShape] at h
  simp only at h
  split at h
  · split at h <;> cases h
  · rename_i hid
    split at h
    · cases h
    · rename_i hspace
      simp only [List.any_eq_true, beq_iff_eq, not_exists, not_and] at hid hspace
      exact fun p hp => ⟨hid p hp, hspace p hp⟩

end Shapes

theorem ImportsRender.bindsWhole_of_default (h : u.ImportsRender i c) (hshape : c.shape = .default) :
    u.BindsWhole i renderBinding := by
  obtain ⟨clause, part, hclause, hpart, hname, heq⟩ := h.bindingPart
  exact ⟨clause, part, hclause, hpart, clauseShape_eq_default (heq ▸ hshape) part hpart, hname⟩

theorem ImportsRender.not_bindsWhole_of_named (h : u.ImportsRender i c) (hshape : c.shape = .named) :
    ¬ u.BindsWhole i renderBinding := by
  rintro ⟨clause, part, hclause, hpart, hlist, hname⟩
  obtain ⟨clause', -, hclause', -, -, heq⟩ := h.bindingPart
  obtain rfl : clause = clause' := Option.some.inj (hclause.symm.trans hclause')
  obtain ⟨hid, hspace⟩ := clauseShape_eq_named (heq ▸ hshape) part hpart
  rw [partNames, if_neg hid, if_neg hspace, if_neg hlist] at hname
  cases hname

end ParsedUnit

open ParsedUnit Text

/-- The rule that imports the library leaves a source alone if and only if it holds no markup or binds the library. -/
theorem proposeImport_eq_nil_iff {u : ParsedUnit} {source : String} :
    proposeImport u source = .ok [] ↔ u.hasMarkup = false ∨ u.bindsRenderLibrary = true := by
  have hdefect : Defect.renderBinding.isPresent u = false ↔ u.hasMarkup = false ∨ u.bindsRenderLibrary = true := by
    rw [Defect.isPresent, Bool.and_eq_false_iff, Bool.not_eq_false']
  rw [← hdefect, proposeImport]
  cases hpresent : Defect.renderBinding.isPresent u with
  | false => simp
  | true =>
    cases hpoint : u.extendableClause? with
    | some offset => simp
    | none => cases hoffset : importOffset? u source <;> simp

/-- The two readings of an import of the library agree unless a list of names binds the name, as they do on every import
of a default alone, and on no import of names alone. Where an import binds the name to the whole the source counts as
binding the library, and the rule proposes nothing; without such an import or call the rule imports the library, even
behind an import that has bound the name. -/
theorem render_readings (u : ParsedUnit) :
    (∀ i c, u.ImportsRender i c →
      (∀ resolve, ⟨c, resolve u.file c.specifier⟩ ∈ u.dependencies resolve) ∧
      (u.importBindsRender i = true ↔ u.BindsWhole i renderBinding) ∧
      (c.shape = .default → u.BindsWhole i renderBinding) ∧ (c.shape = .named → ¬ u.BindsWhole i renderBinding) ∧
      (u.BindsWhole i renderBinding → u.bindsRenderLibrary = true ∧ ∀ source, proposeImport u source = .ok [])) ∧
    (u.bindsRenderLibrary = true ↔ (∃ i c, u.ImportsRender i c ∧ u.BindsWhole i renderBinding) ∨
      ∃ call callee, (call, callee) ∈ u.calls ∧ u.requireBindsRender call callee = true) ∧
    ∀ source, proposeImport u source = .ok [] ↔ u.hasMarkup = false ∨ u.bindsRenderLibrary = true := by
  refine ⟨fun i c h => ⟨h.mem_dependencies, ?_, h.bindsWhole_of_default, h.not_bindsWhole_of_named, fun hwhole => ?_⟩,
    bindsRenderLibrary_iff, fun source => proposeImport_eq_nil_iff⟩
  · rw [importBindsRender_iff h.mem h.statement]
    exact and_iff_right ⟨c, h⟩
  · have hbinds := bindsRenderLibrary_iff.2 (.inl ⟨i, c, h, hwhole⟩)
    exact ⟨hbinds, fun source => proposeImport_eq_nil_iff.2 (.inr hbinds)⟩

/-- A source with markup that imports the default of the library in a list of names: its text is
`import { default as React } from 'react';` with an element behind it. -/
def listed : ParsedUnit where
  file := "a.jsx"
  key := ""
  grammar := none
  source := "import \x7b default as React \x7d from 'react';<b/>"
  nodes := #[⟨"program", true, none, 0, 45, 1, 0, 1, none, [1, 7]⟩,
    ⟨"import_statement", true, none, 0, 41, 1, 0, 1, some 0, [2, 6]⟩,
    ⟨"import_clause", true, none, 7, 27, 1, 7, 1, some 1, [3]⟩,
    ⟨"named_imports", true, none, 7, 27, 1, 7, 1, some 2, [4]⟩,
    ⟨"import_specifier", true, none, 9, 25, 1, 9, 1, some 3, [5]⟩,
    ⟨"identifier", true, some "alias", 20, 25, 1, 20, 1, some 4, []⟩,
    ⟨"string", true, some "source", 33, 40, 1, 33, 1, some 1, []⟩,
    ⟨"jsx_self_closing_element", true, none, 41, 45, 1, 41, 1, some 0, []⟩]
  errors := []
  recovery := none

/-- The import is reported to bind the name and does not count, and the rule puts a second binding in front of it. -/
theorem render_readings_listed : listed.ImportsRender 1 ⟨"react", ["React"], .named, .static, 1⟩ ∧
    listed.importBindsRender 1 = false ∧
    proposeImport listed listed.source = .ok [Edit.insert 7 (renderBinding ++ ", ")] := by
  have h : listed.ImportsRender 1 ⟨"react", ["React"], .named, .static, 1⟩ :=
    ⟨by decide, by decide, by decide, rfl, by decide⟩
  obtain ⟨-, hreads, -, hnamed, -⟩ := (render_readings listed).1 1 _ h
  have hpresent : Defect.renderBinding.isPresent listed = true := by decide
  have hpoint : listed.extendableClause? = some 7 := by decide
  refine ⟨h, Bool.eq_false_iff.2 fun hbinds => hnamed rfl (hreads.1 hbinds), ?_⟩
  rw [proposeImport, hpresent, hpoint]
  rfl

end TreeRepair
