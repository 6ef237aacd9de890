import Blush.Injection.Isolation
import Blush.Resolver.Create

/-! A factory makes an object exactly when all pointers of the connection are injected and the TSS
accepts it; only then is the TSS called at all. -/
namespace Blush.Resolver
open Face Injection
variable {D T : Type} [Traits D T]

/-- The factories, with the data types they are instantiated for. -/
inductive Factory (D : Type)
  | createPubConnection (dataType : D)
  | createSubConnection (dataType : D)
  | createReqConnection (requestType : D)
  | createRspConnection (requestType responseType : D)
  deriving DecidableEq

def Factory.call (f : Factory D) (r : ConnectionResolver) (store : Injected T) (tss : Tss)
    (log : List Event) (connectionName : CString) : Option ConnectionObject × List Event :=
  match f with
  | createPubConnection dataType => r.createPubConnection store tss log connectionName dataType
  | createSubConnection dataType => r.createSubConnection store tss log connectionName dataType
  | createReqConnection requestType => r.createReqConnection store tss log connectionName requestType
  | createRspConnection requestType responseType =>
    r.createRspConnection store tss log connectionName requestType responseType

/-- A resolver, the injection store it looks into, and the calls of `Base` objects so far. -/
structure Setup (T : Type) where
  resolver : ConnectionResolver
  store : Injected T
  log : List Event

namespace Setup
variable (s : Setup T)

/-- A call of a factory. -/
def create (tss : Tss) (f : Factory D) (c : CString) : Option ConnectionObject × Setup T :=
  let created := f.call s.resolver s.store tss s.log c
  (created.1,{ s with log := created.2 })

/-- A pointer other than the null pointer is injected under a name that is not empty; the store
compares what a `STRING_TYPE` takes of it, which is 255 bytes up to a NUL. -/
def InjectedUnder (t : Interface T) (name : List UInt8) (p : ℕ) : Prop :=
  name ≠ [] ∧ ∃ inner, (s.store t).lookup s.resolver.uopBase = some inner ∧
    inner.lookup (StringType.copied name) = some (some p)

/-- The `TypedTS` pointers of a connection are injected for a factory, which makes an object of them
and of an id. -/
inductive Resolves (c : CString) : Factory D → (ℤ → ConnectionObject) → Prop
  | pub {dataType ts}
      (h : s.InjectedUnder (.typedTS (Traits.typedTS dataType .standardRole))
        (s.resolver.resolveTypedTsName c) ts) :
      Resolves c (.createPubConnection dataType) (.publisherConnection ts)
  | sub {dataType ts}
      (h : s.InjectedUnder (.typedTS (Traits.typedTS dataType .standardRole))
        (s.resolver.resolveTypedTsName c) ts) :
      Resolves c (.createSubConnection dataType) (.subscriberConnection ts)
  | req {requestType ts}
      (h : s.InjectedUnder (.typedTS (Traits.typedTS requestType .requesterRole))
        (s.resolver.resolveTypedTsName c) ts) :
      Resolves c (.createReqConnection requestType) (.requesterConnection ts)
  | rsp {requestType responseType requestTs responseTs}
      (h : s.InjectedUnder (.typedTS (Traits.typedTS requestType .standardRole))
        (s.resolver.resolveTypedTsName c) requestTs)
      (h' : s.InjectedUnder (.typedTS (Traits.typedTS responseType .standardRole))
        (s.resolver.resolveTypedTsResponseName c) responseTs) :
      Resolves c (.createRspConnection requestType responseType)
        (.responderConnection requestTs responseTs)

/-- The `Base` pointer of a connection is injected. -/
def ResolvesBase (c : CString) (base : ℕ) : Prop :=
  s.InjectedUnder .base (s.resolver.resolveBaseName c) base

/-- What a call of a factory has to do. -/
structure CreatesResolved (tss : Tss) (f : Factory D) (c : CString) : Prop where
  object : ∀ object, (s.create tss f c).1 = some object ↔ ∃ make base connectionId,
    s.Resolves c f make ∧ s.ResolvesBase c base ∧
      tss s.log base (.ofCString (some c.chars)) = .returned connectionId .noError ∧
        0 ≤ connectionId ∧ object = make connectionId
  called : ∀ make base, s.Resolves c f make → s.ResolvesBase c base →
    (s.create tss f c).2.log = s.log ++ [.createConnection base (.ofCString (some c.chars))
      (tss s.log base (.ofCString (some c.chars)))]
  quiet : (¬∃ make base, s.Resolves c f make ∧ s.ResolvesBase c base) →
    (s.create tss f c).2.log = s.log
  resolver : (s.create tss f c).2.resolver = s.resolver
  store : (s.create tss f c).2.store = s.store

end Setup

/-! ## Lookups -/

section
variable {r : ConnectionResolver} {store : Injected T} {s : Setup T} {c : CString}

theorem injectedUnder_iff {t : Interface T} {name : List UInt8} {p : ℕ} :
    s.InjectedUnder t name p ↔ name ≠ [] ∧
      find? s.store s.resolver.uopBase t (.ofCString (some name)) = some (some p) := by
  rw [find?,StringType.cStr_ofCString,Option.bind_eq_some_iff]
  rfl

theorem getPointer_eq_some {t : Interface T} {name : List UInt8} {p : ℕ} :
    s.resolver.getPointer s.store t name = some p ↔ s.InjectedUnder t name p := by
  rw [injectedUnder_iff,ConnectionResolver.getPointer]
  by_cases hname : name = []
  · simp [hname]
  · rw [if_neg hname]
    cases hf : find? s.store s.resolver.uopBase t (.ofCString (some name)) with
    | none =>
      obtain ⟨what,hw⟩ := getInjected_of_none hf
      simp [hw]
    | some pointer => simp [getInjected_of_some hf,hname]

theorem getBase_eq_some {base : ℕ} :
    s.resolver.getBase s.store c = some base ↔ s.ResolvesBase c base := getPointer_eq_some

end

/-! ## Calls -/

section
variable {s : Setup T} {tss : Tss} {f : Factory D} {c : CString}

/-- The pointers a factory looks for and the object it makes of them. -/
def Factory.pointers (f : Factory D) (s : Setup T) (c : CString) :
    Option (ℤ → ConnectionObject) :=
  let ts (dataType : D) (role : TraitsRole) :=
    s.resolver.getTypedTs s.store (Traits.typedTS dataType role) c
  match f with
  | createPubConnection dataType => (ts dataType .standardRole).map .publisherConnection
  | createSubConnection dataType => (ts dataType .standardRole).map .subscriberConnection
  | createReqConnection requestType => (ts requestType .requesterRole).map .requesterConnection
  | createRspConnection requestType responseType =>
    (ts requestType .standardRole).bind fun requestTs =>
      (s.resolver.getTypedTsResponse s.store (Traits.typedTS responseType .standardRole) c).map
        fun responseTs => .responderConnection requestTs responseTs

theorem pointers_eq_some {make : ℤ → ConnectionObject} :
    f.pointers s c = some make ↔ s.Resolves c f make := by
  constructor
  · intro h
    cases f with
    | createPubConnection type =>
      obtain ⟨ts,hts,rfl⟩ := Option.map_eq_some_iff.mp h
      exact .pub (getPointer_eq_some.mp hts)
    | createSubConnection type =>
      obtain ⟨ts,hts,rfl⟩ := Option.map_eq_some_iff.mp h
      exact .sub (getPointer_eq_some.mp hts)
    | createReqConnection type =>
      obtain ⟨ts,hts,rfl⟩ := Option.map_eq_some_iff.mp h
      exact .req (getPointer_eq_some.mp hts)
    | createRspConnection request response =>
      obtain ⟨requestTs,hreq,h⟩ := Option.bind_eq_some_iff.mp h
      obtain ⟨responseTs,hrsp,rfl⟩ := Option.map_eq_some_iff.mp h
      exact .rsp (getPointer_eq_some.mp hreq) (getPointer_eq_some.mp hrsp)
  · intro h
    cases h with
    | pub h | sub h | req h => exact Option.map_eq_some_iff.mpr ⟨_,getPointer_eq_some.mpr h,rfl⟩
    | rsp h h' =>
      exact Option.bind_eq_some_iff.mpr ⟨_,getPointer_eq_some.mpr h,
        Option.map_eq_some_iff.mpr ⟨_,getPointer_eq_some.mpr h',rfl⟩⟩

theorem createFrom_map {P : Type} (pointers : Option P) (make : P → ℤ → ConnectionObject) :
    s.resolver.createFrom s.store tss s.log c (pointers.map make) id =
      s.resolver.createFrom s.store tss s.log c pointers make := by
  cases pointers <;> rfl

/-- Every factory finds its pointers first and then creates the connection. -/
theorem call_eq : f.call s.resolver s.store tss s.log c =
    s.resolver.createFrom s.store tss s.log c (f.pointers s c) id := by
  cases f with
  | createPubConnection | createSubConnection | createReqConnection =>
    exact (createFrom_map _ _).symm
  | createRspConnection request response =>
    show s.resolver.createRspConnection .. = _
    rw [ConnectionResolver.createRspConnection,← createFrom_map,Option.map_bind]
    congr 2
    funext requestTs
    exact Option.map_map ..

/-- Nothing is called unless all pointers are there. -/
theorem createFrom_of_not (tss : Tss)
    (h : ¬∃ make base, s.Resolves c f make ∧ s.ResolvesBase c base) :
    s.resolver.createFrom s.store tss s.log c (f.pointers s c) id = (none,s.log) := by
  cases hp : f.pointers s c with
  | none => rfl
  | some make =>
    cases hb : s.resolver.getBase s.store c with
    | none => simp [ConnectionResolver.createFrom,ConnectionResolver.createConnection,hb]
    | some base => exact absurd ⟨make,base,pointers_eq_some.mp hp,getBase_eq_some.mp hb⟩ h

/-- With all pointers the answer of the TSS decides. -/
theorem createFrom_of_resolves (tss : Tss) {make : ℤ → ConnectionObject} {base : ℕ}
    (hm : s.Resolves c f make) (hb : s.ResolvesBase c base) :
    let answer := tss s.log base (.ofCString (some c.chars))
    s.resolver.createFrom s.store tss s.log c (f.pointers s c) id =
      (match answer with
        | .returned connectionId .noError =>
          if connectionId < 0 then none else some (make connectionId)
        | _ => none,
        s.log ++ [.createConnection base (.ofCString (some c.chars)) answer]) := by
  intro answer
  rw [pointers_eq_some.mpr hm,ConnectionResolver.createFrom,ConnectionResolver.createConnection]
  simp only [getBase_eq_some.mpr hb]
  cases ha : tss s.log base (.ofCString (some c.chars)) with
  | threw => simp [answer,ha]
  | returned connectionId returnCode => cases returnCode <;> simp [answer,ha]

/-- Every factory, with any configuration, injections and TSS, makes its object if and only if all
pointers resolve and the TSS reports a connection; it calls the TSS once or, without the pointers,
never. -/
theorem factory_creates_resolved (tss : Tss) (s : Setup T) (f : Factory D) (c : CString) :
    s.CreatesResolved tss f c := by
  have hcreate : s.create tss f c =
      ((s.resolver.createFrom s.store tss s.log c (f.pointers s c) id).1,
        { s with log := (s.resolver.createFrom s.store tss s.log c (f.pointers s c) id).2 }) := by
    rw [Setup.create,call_eq]
  by_cases h : ∃ make base, s.Resolves c f make ∧ s.ResolvesBase c base
  · obtain ⟨make,base,hm,hb⟩ := h
    have hfrom := createFrom_of_resolves tss hm hb
    have hunique {make' : ℤ → ConnectionObject} {base' : ℕ} (hm' : s.Resolves c f make')
        (hb' : s.ResolvesBase c base') : make' = make ∧ base' = base :=
      ⟨Option.some.inj ((pointers_eq_some.mpr hm').symm.trans (pointers_eq_some.mpr hm)),
        Option.some.inj ((getBase_eq_some.mpr hb').symm.trans (getBase_eq_some.mpr hb))⟩
    refine ⟨fun object => ?_,fun make' base' hm' hb' => ?_,fun hn => absurd ⟨make,base,hm,hb⟩ hn,
      by rw [hcreate],by rw [hcreate]⟩
    · rw [hcreate,hfrom]
      constructor
      · intro ho
        split at ho
        · rename_i connectionId ha
          obtain ⟨hid,ho⟩ := Option.ite_none_left_eq_some.mp ho
          exact ⟨make,base,connectionId,hm,hb,ha,not_lt.mp hid,(Option.some.inj ho).symm⟩
        · simp at ho
      · rintro ⟨make',base',connectionId,hm',hb',ha,hid,rfl⟩
        obtain ⟨rfl,rfl⟩ := hunique hm' hb'
        rw [ha]
        exact if_neg (not_lt.mpr hid)
    · obtain ⟨rfl,rfl⟩ := hunique hm' hb'
      rw [hcreate,hfrom]
  · have hfrom := createFrom_of_not tss h
    refine ⟨fun object => ?_,fun make base hm hb => absurd ⟨make,base,hm,hb⟩ h,fun _ => ?_,
      by rw [hcreate],by rw [hcreate]⟩
    · rw [hcreate,hfrom]
      refine ⟨fun ho => by simp at ho,?_⟩
      rintro ⟨make,base,-,hm,hb,-⟩
      exact absurd ⟨make,base,hm,hb⟩ h
    · rw [hcreate,hfrom]

end

/-- A responder's names, and the pointers injected under them. -/
def responderSetup : Setup (Bool × TraitsRole) where
  resolver := (((ConnectionResolver.create 9).setUniformBaseName [1]).setUniformTypedTsName
    [2]).setConnectionTypedTsResponseName [7] [3]
  store := inject (inject (inject (fun _ => ∅) 9 .base (.ofCString (some [1])) (some 4)) 9
    (.typedTS (false,.standardRole)) (.ofCString (some [2])) (some 5)) 9
      (.typedTS (true,.standardRole)) (.ofCString (some [3])) (some 6)
  log := []

theorem responderSetup_creates :
    (responderSetup.create (fun _ _ _ => .returned 8 .noError)
      (.createRspConnection false true) ⟨[7],by simp⟩).1 = some (.responderConnection 5 6 8) :=
  ((factory_creates_resolved _ _ _ _).object _).mpr ⟨_,4,8,
    .rsp ⟨by decide,_,rfl,rfl⟩ ⟨by decide,_,rfl,rfl⟩,⟨by decide,_,rfl,rfl⟩,rfl,by decide,rfl⟩

end Blush.Resolver
