import Fpag.Debug.ObjectFile
import Fpag.Debug.StackTrace
import Fpag.Lib.MapM
import Fpag.Lib.Memo

/-!
`debug::Symbolicator` over `debug::dwarf::ModuleCache`: the names and the lines that the addresses
of a process stand for.

The system is a parameter: what `dladdr` says of an address, the bytes of the files that can be
opened and mapped, and the demangler of the C++ runtime. `resolve_pass` says that the cache shows in
nothing but the number of files that are opened, and that an object which is loaded at any base
answers for its addresses as the file says that it encodes: with its functions, and with what is
found for the address in its own debug sections.
-/

namespace Fpag.Debug

open Memo

/-! ## The process -/

/-- `Dl_info`, where a null pointer is none. -/
structure DlInfo : Type where
  fname : Option (List UInt8)
  fbase : Nat
  sname : Option (List UInt8)

/-- What is asked of the system and of the libraries. What the demangler gives is a C string. -/
structure Platform : Type where
  dladdr : Nat → Option DlInfo
  mapping : List UInt8 → Option (List UInt8)
  sort : List Function → List Function
  cxaDemangle : List UInt8 → Option (List UInt8)
  plain : ∀ name demangled, cxaDemangle name = some demangled → 0 ∉ demangled
  fuel : Nat

/-- `demangle`. -/
def demangle (p : Platform) (mangledName : List UInt8) : List UInt8 :=
  if mangledName = [] then [] else (p.cxaDemangle mangledName).getD mangledName

/-- `SymbolInfo`. -/
structure Resolution : Type extends SymbolInfo where
  resolved : Bool := false

/-- A `SymbolInfo` with nothing in it. -/
def unresolved : Resolution := { function := [], file := [], line := 0, column := 0 }

/-! ## Modules -/

/-- A `Module` with its mapping. -/
structure MappedModule : Type where
  mapping : List UInt8 := []
  module : Module := {}

/-- `Module::load_bias_to`. -/
def Module.loadBiasTo (module : Module) (loadBase : Nat) : Nat :=
  if module.positionIndependent then loadBase else 0

/-- The constructor of `Module`, from a path. -/
def MappedModule.ofPath (p : Platform) (path : List UInt8) : Except Stop MappedModule :=
  if path = [] then .ok {}
  else
    match p.mapping path with
    | none => .ok {}
    | some file => (construct p.sort file).map fun module => { mapping := file, module := module }

/-- `ModuleCache`: each entry is a path and the module of it. -/
abbrev Caching (α : Type) : Type := Recalling (List UInt8) MappedModule Stop α

/-- `ModuleCache::at`. -/
def moduleAt (p : Platform) (path : Option (List UInt8)) : Caching (Option MappedModule) :=
  match path with
  | none => pure none
  | some path =>
      if path = [] then pure none
      else do
        let module ← remember (MappedModule.ofPath p) path
        pure (some module)

/-! ## Resolving -/

/-- A name that is neither null nor empty. -/
def Given (name : Option (List UInt8)) : Prop := name.getD [] ≠ []

instance (name : Option (List UInt8)) : Decidable (Given name) :=
  inferInstanceAs (Decidable (_ ≠ _))

/-- What the tables of the object add. -/
def fromObject (p : Platform) (address : Nat) (dl : DlInfo) (opened : Option MappedModule)
    (info : Resolution) : Except Stop Resolution :=
  match opened with
  | none => .ok info
  | some object =>
      if object.module.loaded then do
        let linkAddress := subtract address (object.module.loadBiasTo dl.fbase)
        let info := match functionAt object.module.functions linkAddress with
          | some name => { info with function := demangle p name, resolved := true }
          | none => info
        match ← sourceAt object.mapping object.module linkAddress p.fuel with
        | some position =>
            pure { info with
              file := position.file
              line := .ofNat 32 position.line
              column := .ofNat 32 position.column }
        | none => pure info
      else .ok info

/-- What the dynamic table adds where there is no name yet. -/
def fromDynamic (p : Platform) (dl : DlInfo) (info : Resolution) : Resolution :=
  let info :=
    if !info.resolved ∧ Given dl.sname then
      { info with function := demangle p (dl.sname.getD []), resolved := true }
    else info
  if !info.resolved ∧ Given dl.fname then { info with resolved := true } else info

/-- `Symbolicator::resolve_posix`. -/
def resolvePosix (p : Platform) (address : Nat) : Caching Resolution :=
  match p.dladdr address with
  | none => pure unresolved
  | some dl => do
      let info ←
        if Given dl.fname then do
          let module ← moduleAt p dl.fname
          Memo.plain (fromObject p address dl module unresolved)
        else pure unresolved
      pure (fromDynamic p dl info)

/-- What the symbols of an address are when nothing is remembered. -/
def resolveFresh (p : Platform) (address : Nat) : Except Stop Resolution :=
  match p.dladdr address with
  | none => .ok unresolved
  | some dl =>
      if Given dl.fname then do
        let module ← MappedModule.ofPath p (dl.fname.getD [])
        let info ← fromObject p address dl (some module) unresolved
        pure (fromDynamic p dl info)
      else .ok (fromDynamic p dl unresolved)

/-- The file that an address leads to. -/
def pathsOf (p : Platform) (address : Nat) : List (List UInt8) :=
  match p.dladdr address with
  | none => []
  | some dl => if Given dl.fname then [dl.fname.getD []] else []

variable {p : Platform}

theorem moduleAt_transparent {fname : Option (List UInt8)} (given : Given fname) :
    Transparent (MappedModule.ofPath p) (moduleAt p fname)
      (some <$> MappedModule.ofPath p (fname.getD [])) [fname.getD []] := by
  cases fname with
  | none => exact absurd rfl given
  | some path =>
      change path ≠ [] at given
      rw [moduleAt, if_neg given, map_eq_pure_bind]
      exact .bind (remember_transparent path) fun module _ => .pure (some module)

theorem resolvePosix_transparent (address : Nat) :
    Transparent (MappedModule.ofPath p) (resolvePosix p address) (resolveFresh p address)
      (pathsOf p address) := by
  rw [resolvePosix, resolveFresh, pathsOf]
  cases p.dladdr address with
  | none => exact .pure unresolved
  | some dl =>
      dsimp only
      by_cases given : Given dl.fname
      · rw [if_pos given, if_pos given, if_pos given]
        have found := (moduleAt_transparent (p := p) given).bind fun module _ =>
          Transparent.plain (fromObject p address dl module unresolved)
        have whole := found.bind fun info _ => .pure (fromDynamic p dl info)
        simpa only [map_eq_pure_bind, bind_assoc, pure_bind, List.append_nil] using whole
      · rw [if_neg given, if_neg given, if_neg given]
        exact .pure (fromDynamic p dl unresolved)

/-! ## Objects in memory -/

/-- What is to be said of an address of an object: the function that it lies in, else the name that
the dynamic table has for it, and the position that the debug sections of the object give it. -/
def ObjectFile.answer (o : ObjectFile) (p : Platform) (file : List UInt8) (linkAddress : Nat)
    (sname : Option (List UInt8)) : Except Stop Resolution := do
  let units ← readCompilationUnits file o.debugSections
  let position ← sourceIn (detailTables file o.debugSections) linkAddress p.fuel units
  let inside := o.functions.find? fun f =>
    f.address ≤ linkAddress ∧ linkAddress < f.address + f.size
  let position := position.getD ⟨[], 0, 0⟩
  pure { function := demangle p ((inside.map Function.name).getD (sname.getD []))
         file := position.file
         line := .ofNat 32 position.line
         column := .ofNat 32 position.column
         resolved := true }

/-- An object in memory: the file that it was loaded from, and where it was put. -/
structure LoadedObject : Type where
  path : List UInt8
  file : List UInt8
  object : ObjectFile
  base : Nat

namespace LoadedObject

/-- Where an address of the object is at run time. An object that is linked for fixed addresses is
not moved. -/
def runtime (l : LoadedObject) (linkAddress : Nat) : Nat :=
  u64 (linkAddress + if l.object.type = elfTypeDyn then l.base else 0)

/-- The file of the object is there and encodes it. -/
structure Readable (p : Platform) (l : LoadedObject) : Prop where
  path : l.path ≠ []
  mapped : p.mapping l.path = some l.file
  tabled : l.object.Tabled l.file
  symbols : l.object.Symbols l.file
  apart : ObjectFile.Apart l.object.functions

/-- What `dladdr` says of an address of the object. -/
structure Located (p : Platform) (l : LoadedObject) (linkAddress : Nat) (dl : DlInfo) : Prop where
  word : linkAddress < 2 ^ 64
  found : p.dladdr (l.runtime linkAddress) = some dl
  fname : dl.fname = some l.path
  fbase : dl.fbase = l.base

end LoadedObject

theorem subtract_u64_add {a b : Nat} (word : a < 2 ^ 64) : subtract (u64 (a + b)) b = a := by
  simp only [subtract, u64]
  omega

section Objects

variable {o : ObjectFile} {file : List UInt8}

/-- The lookup in the table of functions is the search for the function that the address lies in. -/
theorem functionAt_find (apart : ObjectFile.Apart o.functions)
    {sort : List Function → List Function} (sorts : Sorts Function.address sort)
    (linkAddress : Nat) :
    functionAt (sort o.functions) linkAddress = (o.functions.find? fun f =>
      f.address ≤ linkAddress ∧ linkAddress < f.address + f.size).map Function.name := by
  obtain ⟨some_, none_⟩ := apart.functionAt sorts linkAddress
  cases found : o.functions.find? fun f =>
      f.address ≤ linkAddress ∧ linkAddress < f.address + f.size with
  | none =>
      apply none_
      intro f member contains
      have other := List.find?_eq_none.mp found f member
      rw [decide_eq_true_eq] at other
      exact other contains
  | some f =>
      have contains := List.find?_some found
      rw [decide_eq_true_eq] at contains
      exact some_ f (List.mem_of_find?_eq_some found) contains

end Objects

/-! ## The answer of an object -/

/-- The name of the object stands, and else there is the one of the dynamic table. -/
theorem fromDynamic_eq {dl : DlInfo} (given : Given dl.fname) (name : Option (List UInt8))
    (file : List UInt8) (line column : BitVec 32) :
    fromDynamic p dl ⟨⟨(name.map (demangle p)).getD [], file, line, column⟩, name.isSome⟩ =
      ⟨⟨demangle p (name.getD (dl.sname.getD [])), file, line, column⟩, true⟩ := by
  cases name with
  | some name => rfl
  | none =>
      by_cases dynamic : Given dl.sname
      · simp [fromDynamic, dynamic]
      · have empty : dl.sname.getD [] = [] := not_not.mp dynamic
        simp [fromDynamic, dynamic, given, demangle, empty]

/-- What the tables of a loaded module give. -/
theorem fromObject_eq {address linkAddress : Nat} {dl : DlInfo} (object : MappedModule)
    (loaded : object.module.loaded = true)
    (place : subtract address (object.module.loadBiasTo dl.fbase) = linkAddress) :
    fromObject p address dl (some object) unresolved =
      (sourceAt object.mapping object.module linkAddress p.fuel).map fun position =>
        let name := functionAt object.module.functions linkAddress
        { function := (name.map (demangle p)).getD []
          file := (position.getD ⟨[], 0, 0⟩).file
          line := .ofNat 32 (position.getD ⟨[], 0, 0⟩).line
          column := .ofNat 32 (position.getD ⟨[], 0, 0⟩).column
          resolved := name.isSome } := by
  rw [fromObject]
  dsimp only
  rw [if_pos loaded, place]
  cases sourceAt object.mapping object.module linkAddress p.fuel with
  | error stop => rfl
  | ok position => cases position <;> cases functionAt object.module.functions linkAddress <;> rfl

/-- An object answers for its addresses, whatever the base is that it is loaded at. -/
theorem resolveFresh_eq {l : LoadedObject} {linkAddress : Nat} {dl : DlInfo}
    (sorts : Sorts Function.address p.sort) (readable : l.Readable p)
    (located : l.Located p linkAddress dl) :
    resolveFresh p (l.runtime linkAddress) = l.object.answer p l.file linkAddress dl.sname := by
  have given : Given dl.fname := by
    rw [located.fname]
    exact readable.path
  have path : dl.fname.getD [] = l.path := by
    rw [located.fname]
    rfl
  rw [resolveFresh, located.found]
  dsimp only
  rw [if_pos given, path, MappedModule.ofPath, if_neg readable.path, readable.mapped]
  dsimp only
  obtain ⟨sameUnits, sameTables⟩ :=
    @ObjectFile.units_eq l.object l.file _ fun _ => ObjectFile.foldl_keep
  rw [ObjectFile.construct_eq readable.tabled readable.symbols sorts, sameUnits, ObjectFile.answer]
  cases readCompilationUnits l.file l.object.debugSections with
  | error stop => rfl
  | ok units =>
      have name := functionAt_find readable.apart sorts linkAddress
      have bias : subtract (l.runtime linkAddress)
          (if (l.object.type == elfTypeDyn) = true then dl.fbase else 0) = linkAddress := by
        rw [LoadedObject.runtime, located.fbase]
        simp only [beq_iff_eq]
        exact subtract_u64_add located.word
      by_cases loaded : (!l.object.functions.isEmpty || !units.isEmpty) = true
      · have told := fromObject_eq (p := p)
          { mapping := l.file, module :=
            { loaded := !l.object.functions.isEmpty || !units.isEmpty,
              positionIndependent := l.object.type == elfTypeDyn,
              sections := l.object.sections.foldl l.object.keep {},
              functions := p.sort l.object.functions, units := units } } loaded bias
        change (fromObject _ _ _ _ _ >>= _) = _
        rw [told, sourceAt, sameTables]
        change _ = (sourceIn _ _ _ _ >>= _)
        cases sourceIn (detailTables l.file l.object.debugSections) linkAddress p.fuel units with
        | error stop => rfl
        | ok position =>
            change Except.ok (fromDynamic p dl _) = Except.ok _
            dsimp only
            rw [name, fromDynamic_eq given]
      · have nothing : l.object.functions = [] ∧ units = [] := by simpa using loaded
        rw [nothing.1, nothing.2]
        exact congrArg Except.ok (fromDynamic_eq given none [] 0 0)

/-- For every process, one pass over any addresses: the cache does not show in what they are
resolved to, and the files that they lead to are opened once each. The addresses of an object whose
file is there are resolved to what the object says of them, at whatever base it is loaded. -/
theorem resolve_pass (sorts : Sorts Function.address p.sort) (addresses : List Nat) :
    let pass := each (resolvePosix p) addresses []
    pass.map Prod.fst = addresses.mapM (resolveFresh p) ∧
    (∀ infos cache, pass = .ok (infos, cache) → (cache.map Prod.fst).Nodup ∧
      ∀ path, path ∈ cache.map Prod.fst ↔ ∃ address ∈ addresses, path ∈ pathsOf p address) ∧
    ∀ (l : LoadedObject) (linkAddress : Nat) (dl : DlInfo), l.Readable p →
      l.Located p linkAddress dl →
      resolveFresh p (l.runtime linkAddress) = l.object.answer p l.file linkAddress dl.sname := by
  intro pass
  have transparent := Transparent.each (resolvePosix_transparent (p := p)) addresses
  have start := coherent_nil (MappedModule.ofPath p)
  refine ⟨transparent.same [] start, fun infos cache ran => ?_, fun l linkAddress dl =>
    resolveFresh_eq sorts⟩
  obtain ⟨coherent, paths⟩ := transparent.keeps [] infos cache start ran
  refine ⟨coherent.once, fun path => ?_⟩
  rw [paths path, List.mem_flatMap]
  simp

/-- A process that has the small object at a base. -/
def smallProcess (sort : List Function → List Function) (base : Nat) : Platform where
  dladdr _ := some ⟨some (ascii ['m']), base, none⟩
  mapping _ := some smallFile
  sort := sort
  cxaDemangle _ := none
  plain _ _ := nofun
  fuel := 9

def smallLoaded (base : Nat) : LoadedObject := ⟨ascii ['m'], smallFile, smallObject, base⟩

theorem smallLoaded_readable (sort : List Function → List Function) (base : Nat) :
    (smallLoaded base).Readable (smallProcess sort base) where
  path := List.cons_ne_nil _ _
  mapped := rfl
  tabled := smallObject_tabled
  symbols := .inr ⟨_, _, smallObject_symbols⟩
  apart := by
    change ObjectFile.Apart smallObject.functions
    rw [smallObject_functions]
    refine ⟨?_, by decide⟩
    simp

/-- What the object says of an address, once its position in the source is found. -/
theorem smallLoaded_answer {sort : List Function → List Function} {base linkAddress : Nat}
    {position : Option SourcePosition}
    (found : sourceIn (detailTables smallFile smallObject.debugSections) linkAddress 9 [smallUnit]
      = .ok position) :
    smallObject.answer (smallProcess sort base) smallFile linkAddress none =
      .ok ⟨⟨demangle (smallProcess sort base)
        ((([⟨0x1000, 0x20, ascii ['f']⟩] : List Function).find? fun f =>
          f.address ≤ linkAddress ∧ linkAddress < f.address + f.size).map Function.name |>.getD []),
        (position.getD ⟨[], 0, 0⟩).file, .ofNat 32 (position.getD ⟨[], 0, 0⟩).line,
        .ofNat 32 (position.getD ⟨[], 0, 0⟩).column⟩, true⟩ := by
  rw [ObjectFile.answer, smallObject_units, smallObject_functions]
  change (sourceIn _ _ 9 [smallUnit] >>= _) = _
  rw [found]
  rfl

theorem smallLoaded_inside (sort : List Function → List Function) (base : Nat) :
    smallObject.answer (smallProcess sort base) smallFile 0x101F none =
      .ok ⟨⟨ascii ['f'], [97], 1, 0⟩, true⟩ :=
  @smallLoaded_answer sort base 0x101F (some ⟨[97], 1, 0⟩) (by decide +kernel)

theorem smallLoaded_outside (sort : List Function → List Function) (base : Nat) :
    smallObject.answer (smallProcess sort base) smallFile 0x1020 none =
      .ok ⟨⟨[], [], 0, 0⟩, true⟩ :=
  @smallLoaded_answer sort base 0x1020 none (by decide +kernel)

theorem resolve_pass_small : ∃ sort, ∃ infos cache,
    each (resolvePosix (smallProcess sort 0x7F0000000000)) [0x7F000000101F, 0x7F0000001020] [] =
        .ok (infos, cache) ∧
      infos.map (fun info => (info.function, info.file, info.line)) =
        [(ascii ['f'], [97], 1), ([], [], 0)] ∧
      (cache.map Prod.fst).Nodup := by
  have last : IsLast Function.address 0x1000 smallObject.functions ⟨0x1000, 0x20, ascii ['f']⟩ := by
    rw [smallObject_functions]
    constructor <;> decide
  obtain ⟨sort, sorts, -⟩ := exists_sort_last last
  obtain ⟨same, once, objects⟩ := resolve_pass (p := smallProcess sort 0x7F0000000000) sorts
    [0x7F000000101F, 0x7F0000001020]
  have first := objects (smallLoaded 0x7F0000000000) 0x101F _ (smallLoaded_readable sort _)
    ⟨by decide, rfl, rfl, rfl⟩
  have second := objects (smallLoaded 0x7F0000000000) 0x1020 _ (smallLoaded_readable sort _)
    ⟨by decide, rfl, rfl, rfl⟩
  rw [smallLoaded, smallLoaded_inside] at first
  rw [smallLoaded, smallLoaded_outside] at second
  change resolveFresh _ 0x7F000000101F = _ at first
  change resolveFresh _ 0x7F0000001020 = _ at second
  rw [List.mapM_cons, List.mapM_cons, first, second] at same
  cases ran : each (resolvePosix (smallProcess sort 0x7F0000000000))
      [0x7F000000101F, 0x7F0000001020] [] with
  | error stop =>
      rw [ran] at same
      cases same
  | ok r =>
      rw [ran] at same
      have infos : r.1 = _ := Except.ok.inj same
      refine ⟨sort, r.1, r.2, ran, ?_, (once r.1 r.2 ran).1⟩
      rw [infos]
      rfl

/-! ## Traces -/

/-- What the frame of an address has at the end. -/
theorem collectTrace_frame (policy : GrowthPolicy) (s : StackTrace) (capture : Capture s.depth)
    {i : Nat} {address : BitVec 64} (here : capture.rawAddrs[i]? = some address) :
    ∃ frame, (s.collectTrace policy capture).frames[i]? = some frame ∧
      frame.Shows (s.collectTrace policy capture).stringBuffer i address
        (capture.resolve address) := by
  have inside : i < capture.rawAddrs.length := (List.getElem?_eq_some_iff.mp here).1
  have some_ : capture.rawAddrs ≠ [] := List.ne_nil_of_length_pos (Nat.zero_lt_of_lt inside)
  have room := room_reservedBuffer policy s.stringBuffer capture capture.rawAddrs.length
  rw [List.take_length] at room
  obtain ⟨-, -, -, -, filled⟩ := fillFrames_spec
    (s := (s.frames, reservedBuffer policy capture.infos s.stringBuffer)) policy capture.resolve 0
    capture.rawAddrs room
  have frame := filled i address here (by
    rw [Nat.zero_add, s.room]
    exact inside.trans_le capture.few)
  rw [Nat.zero_add] at frame
  rw [StackTrace.collectTrace, if_neg some_]
  exact frame

theorem functions_plain {o : ObjectFile} {file : List UInt8} (symbols : o.Symbols file)
    {f : Function} (member : f ∈ o.functions) : 0 ∉ f.name := by
  obtain ⟨s, listed, rfl⟩ := List.mem_map.mp member
  have symbol := (List.mem_filter.mp listed).1
  rcases symbols with ⟨-, none_⟩ | ⟨symtab, strtab, table⟩
  · rw [none_] at symbol
    cases symbol
  · exact (table.wellFormed s symbol).name

theorem demangle_plain (p : Platform) {mangledName : List UInt8} (plain : 0 ∉ mangledName) :
    0 ∉ demangle p mangledName := by
  rw [demangle]
  split
  · exact List.not_mem_nil
  · cases demangled : p.cxaDemangle mangledName with
    | none => exact plain
    | some name => exact p.plain mangledName name demangled

/-- Where an address lies in a function, the function is what is found. -/
theorem answer_function {o : ObjectFile} {file : List UInt8} {linkAddress : Nat}
    {sname : Option (List UInt8)} {info : Resolution} {f : Function}
    (answer : o.answer p file linkAddress sname = .ok info) (apart : ObjectFile.Apart o.functions)
    (member : f ∈ o.functions) (contains : f.Contains linkAddress) :
    info.function = demangle p f.name := by
  have found : (o.functions.find? fun f =>
      f.address ≤ linkAddress ∧ linkAddress < f.address + f.size) = some f := by
    cases search : o.functions.find? fun f =>
        f.address ≤ linkAddress ∧ linkAddress < f.address + f.size with
    | none =>
        have other := List.find?_eq_none.mp search f member
        rw [decide_eq_true_eq] at other
        exact absurd contains other
    | some g =>
        have inside := List.find?_some search
        rw [decide_eq_true_eq] at inside
        rw [apart.apart g (List.mem_of_find?_eq_some search) f member linkAddress inside contains]
  rw [ObjectFile.answer] at answer
  cases read : readCompilationUnits file o.debugSections with
  | error stop =>
      rw [read] at answer
      cases answer
  | ok units =>
      rw [read] at answer
      change (sourceIn _ _ _ _ >>= _) = _ at answer
      cases position : sourceIn (detailTables file o.debugSections) linkAddress p.fuel units with
      | error stop =>
          rw [position] at answer
          cases answer
      | ok position_ =>
          rw [position] at answer
          cases answer
          rw [found]
          rfl

/-- For every trace, whatever it was used for before: if the addresses that are captured are
resolved in one pass, then the frame of every address of an object whose file is there has the name
of the function of the object that the address lies in, and what the object says of its source. -/
theorem trace_of_objects (sorts : Sorts Function.address p.sort) (policy : GrowthPolicy)
    (s : StackTrace) (capture : Capture s.depth) {infos : List Resolution}
    {cache : List (List UInt8 × MappedModule)}
    (pass : each (resolvePosix p) (capture.rawAddrs.map BitVec.toNat) [] = .ok (infos, cache))
    (taken : infos.map Resolution.toSymbolInfo = capture.infos) {i : Nat} {address : BitVec 64}
    (captured : capture.rawAddrs[i]? = some address) {l : LoadedObject} {linkAddress : Nat}
    {dl : DlInfo} (readable : l.Readable p) (located : l.Located p linkAddress dl)
    (place : address.toNat = l.runtime linkAddress) :
    let after := s.collectTrace policy capture
    ∃ info frame, l.object.answer p l.file linkAddress dl.sname = .ok info ∧
      after.frames[i]? = some frame ∧ frame.address = address ∧ frame.index = i ∧
      frame.location.line = info.line ∧ frame.location.column = info.column ∧
      (0 ∉ info.file → frame.location.file.read after.stringBuffer = some info.file) ∧
      ∀ f ∈ l.object.functions, f.Contains linkAddress →
        frame.location.function.read after.stringBuffer = some (demangle p f.name) := by
  intro after
  obtain ⟨frame, there, shows_⟩ := collectTrace_frame policy s capture captured
  have transparent := Transparent.each (resolvePosix_transparent (p := p))
    (capture.rawAddrs.map BitVec.toNat)
  have same := transparent.same [] (coherent_nil _)
  rw [pass] at same
  have fresh : ∃ info, infos[i]? = some info ∧ resolveFresh p address.toNat = .ok info :=
    mapM_getElem? same.symm (by rw [List.getElem?_map, captured]; rfl)
  obtain ⟨info, listed, resolved⟩ := fresh
  rw [place, resolveFresh_eq sorts readable located] at resolved
  have told : capture.resolve address = info.toSymbolInfo := by
    have both := congrArg (·[i]?) taken
    simp only [List.getElem?_map, listed, Capture.infos, captured] at both
    exact (Option.some.inj both).symm
  rw [told] at shows_
  refine ⟨info, frame, resolved, there, shows_.address, shows_.index, shows_.line, shows_.column,
    shows_.file.read, fun f member contains => ?_⟩
  have name := answer_function resolved readable.apart member contains
  have plain := demangle_plain p (functions_plain readable.symbols member)
  rw [← name] at plain ⊢
  exact shows_.function.read plain

theorem trace_of_objects_small : ∃ (s : StackTrace) (after : StackTrace) (frame : StackTraceFrame),
    s.depth = 1 ∧ after.frames[0]? = some frame ∧ frame.address = 0x7F000000101F ∧
      frame.location.line = 1 ∧ frame.location.file.read after.stringBuffer = some [97] ∧
      frame.location.function.read after.stringBuffer = some (ascii ['f']) := by
  have last : IsLast Function.address 0x1000 smallObject.functions ⟨0x1000, 0x20, ascii ['f']⟩ := by
    rw [smallObject_functions]
    constructor <;> decide
  obtain ⟨sort, sorts, -⟩ := exists_sort_last last
  have readable := smallLoaded_readable sort 0x7F0000000000
  have located : (smallLoaded 0x7F0000000000).Located (smallProcess sort 0x7F0000000000) 0x101F
      ⟨some (ascii ['m']), 0x7F0000000000, none⟩ := ⟨by decide, rfl, rfl, rfl⟩
  have fresh := resolveFresh_eq sorts readable located
  rw [smallLoaded, smallLoaded_inside] at fresh
  change resolveFresh _ 0x7F000000101F = _ at fresh
  have same := (Transparent.each (resolvePosix_transparent (p := smallProcess sort 0x7F0000000000))
    [0x7F000000101F]).same [] (coherent_nil _)
  rw [List.mapM_cons, fresh] at same
  cases ran : each (resolvePosix (smallProcess sort 0x7F0000000000)) [0x7F000000101F] [] with
  | error stop =>
      rw [ran] at same
      cases same
  | ok r =>
      rw [ran] at same
      have infos : r.1 = [⟨⟨ascii ['f'], [97], 1, 0⟩, true⟩] := Except.ok.inj same
      let s : StackTrace := ⟨[⟨0, 0, {}⟩], 1, rfl, 0, ⟨0, [], 0, Nat.le_refl 0⟩, .initialized⟩
      let capture : Capture s.depth :=
        ⟨[0x7F000000101F], Nat.le_refl 1, fun _ => ⟨ascii ['f'], [97], 1, 0⟩, by decide⟩
      obtain ⟨info, frame, told, there, address, -, line, -, file, named⟩ :=
        trace_of_objects sorts ⟨fun _ needed => needed, fun _ n => Nat.le_refl n⟩ s
          capture ran (by rw [infos]; rfl) (i := 0) rfl readable located rfl
      rw [smallLoaded, smallLoaded_inside] at told
      obtain rfl := Except.ok.inj told
      refine ⟨s, _, frame, rfl, there, address, line, file (by decide), ?_⟩
      apply named ⟨0x1000, 0x20, ascii ['f']⟩
      · change _ ∈ smallObject.functions
        rw [smallObject_functions]
        exact List.mem_cons_self
      · exact ⟨by decide, by decide⟩

end Fpag.Debug
