import Blush.Lib.LastWrite
import Blush.Resolver.Model

/-! The name a resolver uses for a connection is the last one that was assigned. -/
namespace Blush.Resolver
open Face LastWrite

/-- An assignment of a name, for all connections or for one. -/
inductive Assignment
  | uniformBase (name : List UInt8)
  | uniformTypedTs (name : List UInt8)
  | base (connection name : List UInt8)
  | typedTs (connection name : List UInt8)
  | typedTsResponse (connection name : List UInt8)
  deriving DecidableEq, Repr

namespace Assignment

def uniformBase? : Assignment → Option (List UInt8)
  | uniformBase name => some name
  | _ => none

def uniformTypedTs? : Assignment → Option (List UInt8)
  | uniformTypedTs name => some name
  | _ => none

/-- The assignment of a Base name to the connection `c`. -/
def base? (c : List UInt8) : Assignment → Option (List UInt8)
  | base connection name => if connection = c then some name else none
  | _ => none

def typedTs? (c : List UInt8) : Assignment → Option (List UInt8)
  | typedTs connection name => if connection = c then some name else none
  | _ => none

def typedTsResponse? (c : List UInt8) : Assignment → Option (List UInt8)
  | typedTsResponse connection name => if connection = c then some name else none
  | _ => none

end Assignment

namespace Element

/-- What an `all-connections` element assigns. -/
def uniformAssignments (allConn : Element) : List Assignment :=
  ((allConn.attributeOf "base").map fun v => .uniformBase v.chars).toList ++
    ((allConn.attributeOf "typed_ts").map fun v => .uniformTypedTs v.chars).toList

/-- What an entry of a `connection_list` assigns, if it has a name. -/
def connectionAssignments (conn : Element) : List Assignment :=
  (conn.attributeOf "name").elim [] fun c =>
    ((conn.attributeOf "base").map fun v => .base c.chars v.chars).toList ++
      ((conn.attributeOf "typed_ts").map fun v => .typedTs c.chars v.chars).toList ++
      ((conn.attributeOf "typed_ts_response").map fun v =>
        .typedTsResponse c.chars v.chars).toList

/-- What a connection table assigns: its first `all-connections` goes before its first
`connection_list`. -/
def tableAssignments (table : Element) : List Assignment :=
  ((table.childElements "all-connections").head?.map uniformAssignments).getD
    ((table.childElements "connection_list").head?.elim [] fun connList =>
      (connList.childElements "connection").flatMap connectionAssignments)

end Element

/-- The first connection table for a UoP in a document. -/
def table? (doc : List Element) (uopName : CString) : Option Element :=
  (doc.find? fun e => e.name = "uop-connection-config").bind fun root =>
    (root.childElements "connection-table").find? fun table =>
      table.attributeOf "uop_name" = some uopName

/-- What a call assigns. -/
def Call.assignments (parse : CString → Option (List Element)) : Call → List Assignment
  | initializeFrom configXml uopName =>
    (configXml.bind fun xml => uopName.bind fun name => (parse xml).bind fun doc =>
      table? doc name).elim [] Element.tableAssignments
  | setUniformBaseName name => [.uniformBase name]
  | setConnectionBaseName connectionName baseName => [.base connectionName baseName]
  | setUniformTypedTsName name => [.uniformTypedTs name]
  | setConnectionTypedTsName connectionName typedTsName => [.typedTs connectionName typedTsName]
  | setConnectionTypedTsResponseName connectionName typedTsName =>
    [.typedTsResponse connectionName typedTsName]

/-! ## Calls as sequences of assignments -/

namespace ConnectionResolver
variable {parse : CString → Option (List Element)} {r : ConnectionResolver}

/-- The setter of an assignment. -/
def assign (r : ConnectionResolver) : Assignment → ConnectionResolver
  | .uniformBase name => r.setUniformBaseName name
  | .uniformTypedTs name => r.setUniformTypedTsName name
  | .base connection name => r.setConnectionBaseName connection name
  | .typedTs connection name => r.setConnectionTypedTsName connection name
  | .typedTsResponse connection name => r.setConnectionTypedTsResponseName connection name

theorem initializeUniform_eq (allConn : Element) :
    r.initializeUniform allConn = allConn.uniformAssignments.foldl assign r := by
  rw [initializeUniform,Element.uniformAssignments]
  cases allConn.attributeOf "base" <;> cases allConn.attributeOf "typed_ts" <;> rfl

theorem initializeConnection_eq (conn : Element) :
    r.initializeConnection conn = conn.connectionAssignments.foldl assign r := by
  rw [initializeConnection,Element.connectionAssignments]
  cases conn.attributeOf "name" with
  | none => rfl
  | some c =>
    cases conn.attributeOf "base" <;> cases conn.attributeOf "typed_ts" <;>
      cases conn.attributeOf "typed_ts_response" <;> rfl

theorem initializeConnections_eq (conns : List Element) :
    conns.foldl initializeConnection r =
      (conns.flatMap Element.connectionAssignments).foldl assign r := by
  rw [List.foldl_flatMap]
  congr 1
  funext r conn
  exact initializeConnection_eq conn

theorem initializeTable_eq (table : Element) :
    r.initializeTable table = table.tableAssignments.foldl assign r := by
  rw [initializeTable,Element.tableAssignments]
  cases table.childElements "all-connections" with
  | cons allConn _ => exact initializeUniform_eq allConn
  | nil =>
    cases table.childElements "connection_list" with
    | cons connList _ => exact initializeConnections_eq _
    | nil => rfl

/-- The loop stops at the first table with the name. -/
theorem initializeTables_eq (uopName : CString) (tables : List Element) :
    r.initializeTables uopName tables =
      ((tables.find? fun table => table.attributeOf "uop_name" = some uopName).elim []
        Element.tableAssignments).foldl assign r := by
  induction tables with
  | nil => rfl
  | cons table tables ih =>
    rw [initializeTables]
    cases hattr : table.attributeOf "uop_name" with
    | none =>
      rw [List.find?_cons_of_neg (by simp [hattr])]
      exact ih
    | some attr =>
      dsimp only
      by_cases hname : attr = uopName
      · rw [List.find?_cons_of_pos (by simp [hattr,hname]),if_neg (not_not_intro hname)]
        exact initializeTable_eq table
      · rw [List.find?_cons_of_neg (by simp [hattr,hname]),if_pos hname]
        exact ih

theorem initializeFrom_eq (configXml uopName : Option CString) :
    r.initializeFrom parse configXml uopName =
      ((Call.initializeFrom configXml uopName).assignments parse).foldl assign r := by
  cases configXml with
  | none => rfl
  | some xml =>
    cases uopName with
    | none => rfl
    | some name =>
      rw [initializeFrom,Call.assignments,Option.bind_some,Option.bind_some]
      cases parse xml with
      | none => rfl
      | some doc =>
        rw [Option.bind_some,table?,← List.head?_filter]
        dsimp only
        cases doc.filter fun e => e.name = "uop-connection-config" with
        | nil => rfl
        | cons root _ => exact initializeTables_eq name _

/-- A call does what its assignments do one after the other. -/
theorem run_eq (call : Call) : call.run parse r = (call.assignments parse).foldl assign r := by
  cases call with
  | initializeFrom configXml uopName => exact initializeFrom_eq configXml uopName
  | setUniformBaseName | setConnectionBaseName | setUniformTypedTsName | setConnectionTypedTsName
  | setConnectionTypedTsResponseName => rfl

theorem runs_eq (calls : List Call) :
    calls.foldl (Call.run parse) r =
      (calls.flatMap (Call.assignments parse)).foldl assign r := by
  rw [List.foldl_flatMap]
  congr 1
  funext r call
  exact run_eq call

/-! ## The members after assignments -/

theorem uopBase_foldl (as : List Assignment) : (as.foldl assign r).uopBase = r.uopBase := by
  induction as generalizing r with
  | nil => rfl
  | cons a as ih =>
    rw [List.foldl_cons,ih]
    cases a <;> rfl

theorem uniformBaseName_foldl (as : List Assignment) :
    (as.foldl assign r).uniformBaseName =
      ((as.filterMap Assignment.uniformBase?).getLast?).getD r.uniformBaseName :=
  slot_foldl uniformBaseName (fun r a => by cases a <;> rfl) as r

theorem uniformTypedTsName_foldl (as : List Assignment) :
    (as.foldl assign r).uniformTypedTsName =
      ((as.filterMap Assignment.uniformTypedTs?).getLast?).getD r.uniformTypedTsName :=
  slot_foldl uniformTypedTsName (fun r a => by cases a <;> rfl) as r

theorem perConnectionBase_foldl (c : List UInt8) (as : List Assignment) :
    (as.foldl assign r).perConnectionBase.lookup c =
      ((as.filterMap (Assignment.base? c)).getLast?).or (r.perConnectionBase.lookup c) :=
  get_foldl (fun r => r.perConnectionBase.lookup c) (fun r a => by
    cases a with
    | base connection name => exact lookup_insert _ _ _ _
    | uniformBase | uniformTypedTs | typedTs | typedTsResponse => rfl) as r

theorem perConnectionNames_foldl (c : List UInt8) (as : List Assignment) :
    (as.foldl assign r).perConnectionNames.lookup c =
      ((as.filterMap (Assignment.typedTs? c)).getLast?).or (r.perConnectionNames.lookup c) :=
  get_foldl (fun r => r.perConnectionNames.lookup c) (fun r a => by
    cases a with
    | typedTs connection name => exact lookup_insert _ _ _ _
    | uniformBase | uniformTypedTs | base | typedTsResponse => rfl) as r

theorem perConnectionResponseNames_foldl (c : List UInt8) (as : List Assignment) :
    (as.foldl assign r).perConnectionResponseNames.lookup c =
      ((as.filterMap (Assignment.typedTsResponse? c)).getLast?).or
        (r.perConnectionResponseNames.lookup c) :=
  get_foldl (fun r => r.perConnectionResponseNames.lookup c) (fun r a => by
    cases a with
    | typedTsResponse connection name => exact lookup_insert _ _ _ _
    | uniformBase | uniformTypedTs | base | typedTs => rfl) as r

end ConnectionResolver

/-- After any calls on a fresh resolver each name is the last one assigned to the connection, else
the last uniform one, else empty; a call without assignments changes nothing. -/
theorem names_follow_assignments (parse : CString → Option (List Element)) (uopBase : ℕ)
    (calls : List Call) (c : CString) :
    let r := calls.foldl (Call.run parse) (.create uopBase)
    let as := calls.flatMap (Call.assignments parse)
    r.resolveBaseName c = ((as.filterMap (Assignment.base? c.chars)).getLast?.or
        (as.filterMap Assignment.uniformBase?).getLast?).getD [] ∧
      r.resolveTypedTsName c = ((as.filterMap (Assignment.typedTs? c.chars)).getLast?.or
        (as.filterMap Assignment.uniformTypedTs?).getLast?).getD [] ∧
      r.resolveTypedTsResponseName c =
        (as.filterMap (Assignment.typedTsResponse? c.chars)).getLast?.getD [] ∧
      ∀ call : Call, call.assignments parse = [] → call.run parse r = r := by
  intro r as
  have hr : r = as.foldl ConnectionResolver.assign (.create uopBase) :=
    ConnectionResolver.runs_eq calls
  refine ⟨?_,?_,?_,fun call hcall => by rw [ConnectionResolver.run_eq,hcall,List.foldl_nil]⟩
  · rw [ConnectionResolver.resolveBaseName,hr,ConnectionResolver.perConnectionBase_foldl,
      ConnectionResolver.uniformBaseName_foldl]
    cases (as.filterMap (Assignment.base? c.chars)).getLast? <;> rfl
  · rw [ConnectionResolver.resolveTypedTsName,hr,ConnectionResolver.perConnectionNames_foldl,
      ConnectionResolver.uniformTypedTsName_foldl]
    cases (as.filterMap (Assignment.typedTs? c.chars)).getLast? <;> rfl
  · rw [ConnectionResolver.resolveTypedTsResponseName,hr,
      ConnectionResolver.perConnectionResponseNames_foldl]
    cases (as.filterMap (Assignment.typedTsResponse? c.chars)).getLast? <;> rfl

end Blush.Resolver
