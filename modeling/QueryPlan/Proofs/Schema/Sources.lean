import QueryPlan.Proofs.Schema.Assembly

/-!
# Taking up sources

A builder takes up sources one after another. `TakesUp` says what it has afterwards in terms of
the definitions alone: the types of the definitions behind those that were there, the extensions
behind those that wait, and the root types that blocks name. How the definitions are split into
sources does not come into it, since that only tells the names of the files. `Admits` says when
a builder takes up definitions at all.
-/

set_option autoImplicit false

namespace QueryPlan

open QueryPlan.Syntax

/-- A source: its path, if it has one, and the definitions in it. -/
structure SchemaSource where
  path : Option String
  definitions : SchemaDocument

/-- All definitions of some sources, in the order in which they are loaded. -/
def SchemaSource.all (ss : List SchemaSource) : SchemaDocument := ss.flatMap (·.definitions)

namespace SchemaBuilder

/-- Takes up the definitions of a source. -/
def addSource (b : SchemaBuilder) (s : SchemaSource) : Except SchemaError SchemaBuilder :=
  (b.nameSource s.path).2.addDocument (b.nameSource s.path).1 s.definitions

/-- A builder that has taken up some sources, one after another. -/
def ofSources (ss : List SchemaSource) : Except SchemaError SchemaBuilder :=
  ss.foldlM addSource .empty

/-- Loading a text takes up the definitions that it is read as. -/
theorem load_eq_addSource (b : SchemaBuilder) (path : Option String) {text : String}
    {definitions : SchemaDocument} (h : SchemaDocument.ofSource? text = some definitions) :
    b.load path text = b.addSource ⟨path, definitions⟩ := by
  rw [load, h]
  rfl

/-- Builders that have taken up the definitions of some sources, one after another. -/
inductive Loaded : SchemaBuilder → Prop
  | empty : Loaded SchemaBuilder.empty
  | source {b b' : SchemaBuilder} {path : Option String} {definitions : SchemaDocument} :
      Loaded b →
      (b.nameSource path).2.addDocument (b.nameSource path).1 definitions = .ok b' → Loaded b'

/-- Loading a text takes up its definitions as those of a source. -/
theorem Loaded.load {b b' : SchemaBuilder} {path : Option String} {source : String}
    (hb : Loaded b) (h : b.load path source = .ok b') : Loaded b' := by
  cases hd : SchemaDocument.ofSource? source with
  | none =>
      rw [SchemaBuilder.load, hd] at h
      cases h
  | some definitions =>
      rw [load_eq_addSource b path hd] at h
      exact .source hb h

/-- The builders that loading can lead to are those of some sources. -/
theorem loaded_iff {b : SchemaBuilder} : b.Loaded ↔ ∃ ss, ofSources ss = .ok b := by
  constructor
  · intro h
    induction h with
    | empty => exact ⟨[], rfl⟩
    | @source b b' path definitions _ hd ih =>
        obtain ⟨ss, hss⟩ := ih
        refine ⟨ss ++ [⟨path, definitions⟩], ?_⟩
        rw [ofSources, List.foldlM_append]
        exact ok_bind_iff.2 ⟨b, hss, ok_bind_iff.2 ⟨b', hd, rfl⟩⟩
  · rintro ⟨ss, hss⟩
    refine foldlM_ok_induct Loaded ?_ .empty hss
    exact fun _ _ _ hb hd => .source hb hd

/-! ## Root types -/

/-- The root type that has been named for a kind of operation. -/
def rootNames (b : SchemaBuilder) (kind : OperationKind) : List String :=
  (b.root? kind).toList.map (·.type)

@[simp] theorem rootNames_empty (kind : OperationKind) : empty.rootNames kind = [] := by
  cases kind <;> rfl

/-- The root types for one kind among named ones of all kinds. -/
def namesFor (kind : OperationKind) (rs : List (OperationKind × Option String)) : List String :=
  rs.flatMap fun r => if r.1 = kind then r.2.toList else []

theorem root?_setRoot (b : SchemaBuilder) (r : RootReference) (kind kind' : OperationKind) :
    (b.setRoot r kind).root? kind' = if kind = kind' then some r else b.root? kind' := by
  cases kind <;> cases kind' <;> rfl

theorem setRoot_types (b : SchemaBuilder) (r : RootReference) (kind : OperationKind) :
    (b.setRoot r kind).types = b.types := by
  cases kind <;> rfl

theorem setRoot_extensions (b : SchemaBuilder) (r : RootReference) (kind : OperationKind) :
    (b.setRoot r kind).extensions = b.extensions := by
  cases kind <;> rfl

/-- Naming a root type adds its name to those of its kind, and does nothing else. -/
theorem nameRoot_spec {location : SchemaLocation} {b b' : SchemaBuilder}
    {r : OperationKind × Option String} (h : nameRoot location b r = .ok b') :
    b'.types = b.types ∧ b'.extensions = b.extensions ∧
      ∀ kind, b'.rootNames kind = b.rootNames kind ++ namesFor kind [r] := by
  obtain ⟨kind, name⟩ := r
  cases name with
  | none =>
      cases h
      exact ⟨rfl, rfl, fun kind' => by simp [namesFor]⟩
  | some name =>
      cases hroot : b.root? kind with
      | some r =>
          simp only [nameRoot, hroot] at h
          cases h
      | none =>
          simp only [nameRoot, hroot] at h
          cases h
          refine ⟨setRoot_types b _ kind, setRoot_extensions b _ kind, fun kind' => ?_⟩
          rw [rootNames, rootNames, root?_setRoot, namesFor]
          by_cases hk : kind = kind'
          · subst hk
            simp [hroot]
          · simp [hk]

/-- A root type is named where none was named before. -/
theorem exists_nameRoot (location : SchemaLocation) {b : SchemaBuilder}
    {r : OperationKind × Option String}
    (h : (b.rootNames r.1 ++ namesFor r.1 [r]).length ≤ 1) :
    ∃ b', nameRoot location b r = .ok b' := by
  obtain ⟨kind, name⟩ := r
  cases name with
  | none => exact ⟨b, rfl⟩
  | some name =>
      cases hroot : b.root? kind with
      | none =>
          refine ⟨b.setRoot ⟨name, location⟩ kind, ?_⟩
          simp only [nameRoot, hroot]
      | some e => simp [rootNames, namesFor, hroot] at h

theorem nameRoots_spec {location : SchemaLocation} {b b' : SchemaBuilder}
    {rs : List (OperationKind × Option String)}
    (h : rs.foldlM (nameRoot location) b = .ok b') :
    b'.types = b.types ∧ b'.extensions = b.extensions ∧
      ∀ kind, b'.rootNames kind = b.rootNames kind ++ namesFor kind rs := by
  induction rs generalizing b with
  | nil =>
      cases h
      exact ⟨rfl, rfl, fun kind => by simp [namesFor]⟩
  | cons r rs ih =>
      rw [List.foldlM_cons, ok_bind_iff] at h
      obtain ⟨b₁, hone, hrest⟩ := h
      obtain ⟨ht, he, hr⟩ := nameRoot_spec hone
      obtain ⟨ht', he', hr'⟩ := ih hrest
      refine ⟨ht'.trans ht, he'.trans he, fun kind => ?_⟩
      rw [hr', hr, List.append_assoc]
      simp [namesFor]

theorem exists_nameRoots (location : SchemaLocation) {b : SchemaBuilder}
    {rs : List (OperationKind × Option String)}
    (h : ∀ kind, (b.rootNames kind ++ namesFor kind rs).length ≤ 1) :
    ∃ b', rs.foldlM (nameRoot location) b = .ok b' := by
  induction rs generalizing b with
  | nil => exact ⟨b, rfl⟩
  | cons r rs ih =>
      have hsplit : ∀ kind, namesFor kind (r :: rs) = namesFor kind [r] ++ namesFor kind rs :=
        fun kind => by simp [namesFor]
      obtain ⟨b₁, hone⟩ := exists_nameRoot location (b := b) (r := r) (by
        have hr := h r.1
        rw [hsplit, ← List.append_assoc, List.length_append] at hr
        omega)
      obtain ⟨b', hrest⟩ := ih (b := b₁) fun kind => by
        rw [(nameRoot_spec hone).2.2, List.append_assoc, ← hsplit]
        exact h kind
      exact ⟨b', ok_bind_iff.2 ⟨b₁, hone, hrest⟩⟩

/-- The root types of a block, by kind of operation. -/
theorem namesFor_block (r : RootTypes) (kind : OperationKind) :
    namesFor kind [(.query, r.query), (.mutation, r.mutation), (.subscription, r.subscription)]
      = (r.named kind).toList := by
  cases kind <;> simp [namesFor, RootTypes.named]

/-! ## What a builder takes up -/

/-- What `b` has become by taking up definitions. -/
structure TakesUp (b : SchemaBuilder) (ds : SchemaDocument) (b' : SchemaBuilder) : Prop where
  types : ∃ es, b'.types.entries = b.types.entries ++ es ∧
    List.Forall₂ (fun d e => e.1 = d.name ∧ e.2.Declared d.name d.description d.body)
      ds.definedTypes es
  extensions : ∃ es, b'.extensions = b.extensions ++ es ∧ es.map Prod.snd = ds.extensions
  roots : ∀ kind, b'.rootNames kind = b.rootNames kind ++ ds.rootNames kind

variable {b b' c : SchemaBuilder} {ds ds' : SchemaDocument}

theorem TakesUp.nil (b : SchemaBuilder) : TakesUp b [] b where
  types := ⟨[], (List.append_nil _).symm, .nil⟩
  extensions := ⟨[], (List.append_nil _).symm, rfl⟩
  roots _ := (List.append_nil _).symm

theorem TakesUp.append (h : TakesUp b ds b') (h' : TakesUp b' ds' c) :
    TakesUp b (ds ++ ds') c where
  types := by
    obtain ⟨es, hes, hall⟩ := h.types
    obtain ⟨es', hes', hall'⟩ := h'.types
    refine ⟨es ++ es', by rw [hes', hes, List.append_assoc], ?_⟩
    rw [SchemaDocument.definedTypes_append]
    exact List.rel_append hall hall'
  extensions := by
    obtain ⟨es, hes, hall⟩ := h.extensions
    obtain ⟨es', hes', hall'⟩ := h'.extensions
    refine ⟨es ++ es', by rw [hes', hes, List.append_assoc], ?_⟩
    rw [List.map_append, hall, hall', SchemaDocument.extensions_append]
  roots kind := by
    rw [h'.roots, h.roots, List.append_assoc, SchemaDocument.rootNames_append]

/-- The types that are there afterwards, by name. -/
theorem TakesUp.keys (h : TakesUp b ds b') :
    b'.types.keys = b.types.keys ++ ds.definedTypes.map (·.name) := by
  obtain ⟨es, hes, hall⟩ := h.types
  rw [OrderedMap.keys, hes, List.map_append]
  exact congrArg _ (map_eq_of_forall₂ hall.flip fun e d hed => hed.1)

/-- A builder takes up what repeats neither a type nor a root type. -/
structure Admits (b : SchemaBuilder) (ds : SchemaDocument) : Prop where
  names : (b.types.keys ++ ds.definedTypes.map (·.name)).Nodup
  apart : ∀ d ∈ ds.definedTypes, d.body.Apart
  roots : ∀ kind, (b.rootNames kind ++ ds.rootNames kind).length ≤ 1

theorem Admits.left (h : Admits b (ds ++ ds')) : Admits b ds where
  names := by
    have hnames := h.names
    rw [SchemaDocument.definedTypes_append, List.map_append, ← List.append_assoc] at hnames
    exact hnames.of_append_left
  apart d hd := h.apart d (by simp [hd])
  roots kind := by
    have hroots := h.roots kind
    rw [SchemaDocument.rootNames_append, ← List.append_assoc, List.length_append] at hroots
    omega

/-- What is left to take up is admitted after the first part has been. -/
theorem Admits.right (h : Admits b (ds ++ ds')) (ht : TakesUp b ds b') : Admits b' ds' where
  names := by
    rw [ht.keys, List.append_assoc, ← List.map_append, ← SchemaDocument.definedTypes_append]
    exact h.names
  apart d hd := h.apart d (by simp [hd])
  roots kind := by
    rw [ht.roots, List.append_assoc, ← SchemaDocument.rootNames_append]
    exact h.roots kind

/-! ## One definition -/

theorem takesUp_defineType {file : String} {d : TypeDeclaration}
    (h : b.defineType file d = .ok b') : TakesUp b [.type d] b' := by
  unfold defineType at h
  by_cases hbuiltin : redeclaresBuiltin d = true
  · have hnone : SchemaDocument.definedTypes [.type d] = [] := by
      simp [SchemaDocument.definedTypes, SchemaDefinition.definedType?, hbuiltin]
    rw [if_pos hbuiltin] at h
    cases h
    exact { TakesUp.nil b with types := ⟨[], (List.append_nil _).symm, hnone ▸ .nil⟩ }
  · have hone : SchemaDocument.definedTypes [.type d] = [d] := by
      simp [SchemaDocument.definedTypes, SchemaDefinition.definedType?, hbuiltin]
    rw [if_neg hbuiltin] at h
    obtain ⟨t, ht, h⟩ := ok_bind_iff.1 h
    split at h
    · cases h
    · rename_i hnew
      cases h
      refine { TakesUp.nil b with types := ⟨[(d.name, t)], ?_, ?_⟩ }
      · exact OrderedMap.entries_insert_of_notMem _ (OrderedMap.get?_eq_none_iff.1 hnew)
      · rw [hone]
        exact .cons ⟨rfl, declared_of_typeOf ht⟩ .nil

theorem exists_defineType (file : String) {d : TypeDeclaration} (h : Admits b [.type d]) :
    ∃ b', b.defineType file d = .ok b' := by
  unfold defineType
  by_cases hbuiltin : redeclaresBuiltin d = true
  · exact ⟨b, by rw [if_pos hbuiltin]⟩
  · have hone : SchemaDocument.definedTypes [.type d] = [d] := by
      simp [SchemaDocument.definedTypes, SchemaDefinition.definedType?, hbuiltin]
    obtain ⟨t, ht⟩ := exists_typeOf file (h.apart d (by simp [hone]))
    have hnames := h.names
    rw [hone] at hnames
    have hnew : d.name ∉ b.types.keys := fun hmem =>
      List.disjoint_of_nodup_append hnames hmem List.mem_cons_self
    refine ⟨{ b with types := b.types.insert d.name t }, ?_⟩
    rw [if_neg hbuiltin]
    refine ok_bind_iff.2 ⟨t, ht, ?_⟩
    rw [OrderedMap.get?_eq_none_iff.2 hnew]
    rfl

theorem takesUp_addDefinition {file : String} {d : SchemaDefinition}
    (h : addDefinition file b d = .ok b') : TakesUp b [d] b' := by
  cases d with
  | type d => exact takesUp_defineType h
  | extension d =>
      cases h
      exact { TakesUp.nil b with extensions := ⟨[(file, d)], rfl, rfl⟩ }
  | directive name =>
      cases h
      exact { TakesUp.nil b with }
  | roots r =>
      obtain ⟨ht, he, hr⟩ := nameRoots_spec h
      refine ⟨⟨[], by rw [ht, List.append_nil], .nil⟩, ⟨[], by rw [he, List.append_nil], rfl⟩, ?_⟩
      intro kind
      rw [hr, namesFor_block]
      cases hname : r.named kind <;>
        simp [SchemaDocument.rootNames, SchemaDefinition.root?, hname]

theorem exists_addDefinition (file : String) {d : SchemaDefinition} (h : Admits b [d]) :
    ∃ b', addDefinition file b d = .ok b' := by
  cases d with
  | type d => exact exists_defineType file h
  | extension d => exact ⟨_, rfl⟩
  | directive name => exact ⟨_, rfl⟩
  | roots r =>
      refine exists_nameRoots _ fun kind => ?_
      have hroots := h.roots kind
      rw [namesFor_block]
      cases hname : r.named kind <;>
        simpa [SchemaDocument.rootNames, SchemaDefinition.root?, hname] using hroots

/-! ## Whole sources -/

theorem takesUp_addDocument {file : String} (h : b.addDocument file ds = .ok b') :
    TakesUp b ds b' := by
  induction ds generalizing b with
  | nil =>
      cases h
      exact TakesUp.nil _
  | cons d ds ih =>
      rw [addDocument, List.foldlM_cons, ok_bind_iff] at h
      obtain ⟨b₁, hone, hrest⟩ := h
      exact (takesUp_addDefinition hone).append (ih hrest)

theorem exists_addDocument (file : String) (h : Admits b ds) :
    ∃ b', b.addDocument file ds = .ok b' := by
  induction ds generalizing b with
  | nil => exact ⟨b, rfl⟩
  | cons d ds ih =>
      have hboth : Admits b ([d] ++ ds) := h
      obtain ⟨b₁, hone⟩ := exists_addDefinition file hboth.left
      obtain ⟨b', hrest⟩ := ih (hboth.right (takesUp_addDefinition hone))
      exact ⟨b', ok_bind_iff.2 ⟨b₁, hone, hrest⟩⟩

theorem takesUp_addSource {s : SchemaSource} (h : b.addSource s = .ok b') :
    TakesUp b s.definitions b' := by
  have htakes := takesUp_addDocument h
  obtain ⟨path, definitions⟩ := s
  -- naming a source only counts it
  cases path <;> exact ⟨htakes.types, htakes.extensions, htakes.roots⟩

theorem exists_addSource {s : SchemaSource} (h : Admits b s.definitions) :
    ∃ b', b.addSource s = .ok b' := by
  apply exists_addDocument
  obtain ⟨path, definitions⟩ := s
  cases path <;> exact ⟨h.names, h.apart, h.roots⟩

theorem takesUp_addSources {ss : List SchemaSource} (h : ss.foldlM addSource b = .ok b') :
    TakesUp b (SchemaSource.all ss) b' := by
  induction ss generalizing b with
  | nil =>
      cases h
      exact TakesUp.nil _
  | cons s ss ih =>
      rw [List.foldlM_cons, ok_bind_iff] at h
      obtain ⟨b₁, hone, hrest⟩ := h
      exact (takesUp_addSource hone).append (ih hrest)

theorem exists_addSources {ss : List SchemaSource} (h : Admits b (SchemaSource.all ss)) :
    ∃ b', ss.foldlM addSource b = .ok b' := by
  induction ss generalizing b with
  | nil => exact ⟨b, rfl⟩
  | cons s ss ih =>
      obtain ⟨b₁, hone⟩ := exists_addSource (s := s) h.left
      obtain ⟨b', hrest⟩ := ih (h.right (takesUp_addSource hone))
      exact ⟨b', ok_bind_iff.2 ⟨b₁, hone, hrest⟩⟩

end SchemaBuilder

end QueryPlan
