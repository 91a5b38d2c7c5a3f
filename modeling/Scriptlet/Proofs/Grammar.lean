import Scriptlet.Proofs.Reading

namespace Scriptlet.Proofs.Grammar
open Reading (Written)

/-- The nonterminals, each with the type of its trees. The layers of an expression come first, the
loosest one at the front. -/
inductive Symbol : Type → Type where
  | expression : Symbol Expr
  | logical : Symbol Expr
  | boolean : Symbol Expr
  | assignment : Symbol Expr
  | array : Symbol Expr
  | object : Symbol Expr
  | additive : Symbol Expr
  | multiplicative : Symbol Expr
  | call : Symbol Expr
  | member : Symbol Expr
  /-- A chain of members without an assignment behind it. -/
  | chain : Symbol Expr
  | primary : Symbol Expr
  /-- One or more expressions with commas between them. -/
  | list : Symbol (List Expr)
  | entry : Symbol Property
  | entries : Symbol (List Property)
  | fields : Symbol (List Field)
  | parameters : Symbol (List String)
  | declarator (constant : Bool) : Symbol Stmt
  /-- One or more declarators with commas between them. -/
  | declarators (constant : Bool) : Symbol (List Stmt)
  | block : Symbol (List Stmt)
  /-- One statement of the source, which may declare several variables. -/
  | statement : Symbol (List Stmt)
  | statements : Symbol (List Stmt)

/-- The spellings of a comparison. -/
inductive Comparison : List Token → LogicalOp → Bool → Prop where
  | order {t : Token} (ht : t.kind = .logicalOperator) :
      Comparison [t] (if t.text = "<" then .less else .greater) false
  | orderOrEqual {t u : Token} (ht : t.kind = .logicalOperator) (hu : u.kind = .equals) :
      Comparison [t, u] (if t.text = "<" then .less else .greater) true
  | equal {t u : Token} (ht : t.kind = .equals) (hu : u.kind = .equals) : Comparison [t, u] .equal true
  | notEqual {t u : Token} (ht : t.kind = .not) (hu : u.kind = .equals) :
      Comparison [t, u] .notEqual true

/-- The spellings of a doubled operator on truth values. -/
inductive Connective : List Token → BooleanOp → Prop where
  | doubled {t u : Token} (ht : t.kind = .booleanOperator) (hu : u.kind = .booleanOperator)
      (hut : u.text = t.text) : Connective [t, u] (if t.text = "&" then .and else .or)

/-- An arithmetic operator of an accepted sort. -/
def Operator (accepted : BinaryOp → Bool) (t : Token) (op : BinaryOp) : Prop :=
  t.kind = .binaryOperator ∧ BinaryOp.ofSymbol? t.text = some op ∧ accepted op = true

/-- A comma, or nothing. -/
def Comma (w : List Token) : Prop :=
  w = [] ∨ ∃ t, w = [t] ∧ t.kind = .comma

/-- The trees that words of tokens spell. Every rule takes its word apart completely, so a derivation
accounts for each token once and in order. -/
inductive Derives : {α : Type} → Symbol α → List Token → α → Prop where
  | negation {t : Token} {w : List Token} {e : Expr} (ht : t.kind = .not)
      (h : Derives .expression w e) : Derives .expression (t :: w) (.not e)
  | ofLogical {w : List Token} {e : Expr} (h : Derives .logical w e) : Derives .expression w e
  | comparison {u v w : List Token} {l r : Expr} {op : LogicalOp} {equals : Bool}
      (hl : Derives .boolean u l) (hop : Comparison v op equals) (hr : Derives .expression w r) :
      Derives .logical (u ++ v ++ w) (.logical l op equals r)
  | ofBoolean {w : List Token} {e : Expr} (h : Derives .boolean w e) : Derives .logical w e
  | connective {u v w : List Token} {l r : Expr} {op : BooleanOp}
      (hl : Derives .assignment u l) (hop : Connective v op) (hr : Derives .expression w r) :
      Derives .boolean (u ++ v ++ w) (.boolean l op r)
  | ofAssignment {w : List Token} {e : Expr} (h : Derives .assignment w e) : Derives .boolean w e
  | write {t : Token} {u w : List Token} {target value e : Expr} (htarget : Derives .array u target)
      (ht : t.kind = .equals) (hvalue : Derives .expression w value) (he : Written target value e) :
      Derives .assignment (u ++ [t] ++ w) e
  | ofArray {w : List Token} {e : Expr} (h : Derives .array w e) : Derives .assignment w e
  | emptyArray {t u : Token} (ht : t.kind = .openBracket) (hu : u.kind = .closeBracket) :
      Derives .array [t, u] (.array [])
  | arrayOf {t u : Token} {w : List Token} {es : List Expr} (ht : t.kind = .openBracket)
      (h : Derives .list w es) (hu : u.kind = .closeBracket) :
      Derives .array ([t] ++ w ++ [u]) (.array es)
  | ofObject {w : List Token} {e : Expr} (h : Derives .object w e) : Derives .array w e
  | objectOf {t u : Token} {w : List Token} {ps : List Property} (ht : t.kind = .openBrace)
      (h : Derives .entries w ps) (hu : u.kind = .closeBrace) :
      Derives .object ([t] ++ w ++ [u]) (.object ps)
  | ofAdditive {w : List Token} {e : Expr} (h : Derives .additive w e) : Derives .object w e
  | sum {t : Token} {u w : List Token} {l r : Expr} {op : BinaryOp} (hl : Derives .additive u l)
      (ht : Operator BinaryOp.isAdditive t op) (hr : Derives .multiplicative w r) :
      Derives .additive (u ++ [t] ++ w) (.binary l op r)
  | ofMultiplicative {w : List Token} {e : Expr} (h : Derives .multiplicative w e) :
      Derives .additive w e
  | product {t : Token} {u w : List Token} {l r : Expr} {op : BinaryOp}
      (hl : Derives .multiplicative u l) (ht : Operator BinaryOp.isMultiplicative t op)
      (hr : Derives .call w r) : Derives .multiplicative (u ++ [t] ++ w) (.binary l op r)
  | ofCall {w : List Token} {e : Expr} (h : Derives .call w e) : Derives .multiplicative w e
  | emptyCall {t v : Token} {u : List Token} {f : Expr} (hf : Derives .call u f)
      (ht : t.kind = .openParen) (hv : v.kind = .closeParen) :
      Derives .call (u ++ [t, v]) (.call f [])
  | callWith {t v : Token} {u w : List Token} {f : Expr} {es : List Expr} (hf : Derives .call u f)
      (ht : t.kind = .openParen) (hes : Derives .list w es) (hv : v.kind = .closeParen) :
      Derives .call (u ++ ([t] ++ w ++ [v])) (.call f es)
  | ofMember {w : List Token} {e : Expr} (h : Derives .member w e) : Derives .call w e
  | memberWrite {t : Token} {u w : List Token} {target value e : Expr}
      (htarget : Derives .chain u target) (ht : t.kind = .equals)
      (hvalue : Derives .expression w value) (he : Written target value e) :
      Derives .member (u ++ [t] ++ w) e
  | ofChain {w : List Token} {e : Expr} (h : Derives .chain w e) : Derives .member w e
  | dot {t : Token} {u w : List Token} {object : Expr} {name : String}
      (hobject : Derives .chain u object) (ht : t.kind = .dot)
      (hname : Derives .primary w (.identifier name)) :
      Derives .chain (u ++ ([t] ++ w)) (.member object (.identifier name) false none)
  | index {t v : Token} {u w : List Token} {object key : Expr} (hobject : Derives .chain u object)
      (ht : t.kind = .openBracket) (hkey : Derives .expression w key) (hv : v.kind = .closeBracket) :
      Derives .chain (u ++ ([t] ++ w ++ [v])) (.member object key true none)
  | ofPrimary {w : List Token} {e : Expr} (h : Derives .primary w e) : Derives .chain w e
  | identifier {t : Token} (ht : t.kind = .identifier) : Derives .primary [t] (.identifier t.text)
  | number {t : Token} {x : Float} (ht : t.kind = .number)
      (hx : Decimal.read? t.text.toList = some x) : Derives .primary [t] (.number x)
  | string {t : Token} (ht : t.kind = .string) : Derives .primary [t] (.text t.text)
  | parens {t u : Token} {w : List Token} {e : Expr} (ht : t.kind = .openParen)
      (h : Derives .expression w e) (hu : u.kind = .closeParen) :
      Derives .primary ([t] ++ w ++ [u]) e
  | listOne {w : List Token} {e : Expr} (h : Derives .expression w e) : Derives .list w [e]
  | listMore {t : Token} {u w : List Token} {e : Expr} {es : List Expr}
      (he : Derives .expression u e) (ht : t.kind = .comma) (hes : Derives .list w es) :
      Derives .list (u ++ [t] ++ w) (e :: es)
  | shorthand {t : Token} (ht : t.kind = .identifier) : Derives .entry [t] (.shorthand t.text)
  | valued {t u : Token} {w : List Token} {e : Expr} (ht : t.kind = .identifier)
      (hu : u.kind = .colon) (h : Derives .expression w e) :
      Derives .entry ([t] ++ [u] ++ w) (.valued t.text e)
  | noEntries : Derives .entries [] []
  | lastEntry {w : List Token} {p : Property} (h : Derives .entry w p) : Derives .entries w [p]
  | moreEntries {t : Token} {u w : List Token} {p : Property} {ps : List Property}
      (hp : Derives .entry u p) (ht : t.kind = .comma) (hps : Derives .entries w ps) :
      Derives .entries (u ++ [t] ++ w) (p :: ps)
  | noFields : Derives .fields [] []
  | moreFields {t u v : Token} {k w : List Token} {fs : List Field} (ht : t.kind = .identifier)
      (hu : u.kind = .colon) (hv : v.kind = .identifier) (hk : Comma k) (hfs : Derives .fields w fs) :
      Derives .fields ([t, u, v] ++ k ++ w) (⟨t.text, v.text⟩ :: fs)
  | noParameters : Derives .parameters [] []
  | moreParameters {t : Token} {k w : List Token} {names : List String} (ht : t.kind = .identifier)
      (hk : Comma k) (h : Derives .parameters w names) :
      Derives .parameters ([t] ++ k ++ w) (t.text :: names)
  | bare {constant : Bool} {t : Token} (ht : t.kind = .identifier) :
      Derives (.declarator constant) [t] (.varDecl t.text constant .omitted)
  | initialized {constant : Bool} {t u : Token} {w : List Token} {e : Expr}
      (ht : t.kind = .identifier) (hu : u.kind = .equals) (h : Derives .expression w e) :
      Derives (.declarator constant) ([t] ++ [u] ++ w) (.varDecl t.text constant e)
  | lastDeclarator {constant : Bool} {w : List Token} {s : Stmt}
      (h : Derives (.declarator constant) w s) : Derives (.declarators constant) w [s]
  | moreDeclarators {constant : Bool} {t : Token} {u w : List Token} {s : Stmt} {ss : List Stmt}
      (hs : Derives (.declarator constant) u s) (ht : t.kind = .comma)
      (hss : Derives (.declarators constant) w ss) :
      Derives (.declarators constant) (u ++ [t] ++ w) (s :: ss)
  | structDecl {t u v x : Token} {w : List Token} {fs : List Field} (ht : t.kind = .structWord)
      (hu : u.kind = .identifier) (hv : v.kind = .openBrace) (hfs : Derives .fields w fs)
      (hne : fs ≠ []) (hx : x.kind = .closeBrace) :
      Derives .statement ([t, u, v] ++ w ++ [x]) [.structDecl u.text fs]
  | letDecl {t : Token} {w : List Token} {ss : List Stmt} (ht : t.kind = .letWord)
      (h : Derives (.declarators false) w ss) : Derives .statement ([t] ++ w) ss
  | constDecl {t : Token} {w : List Token} {ss : List Stmt} (ht : t.kind = .constWord)
      (h : Derives (.declarators true) w ss) : Derives .statement ([t] ++ w) ss
  | fnDecl {t u v x : Token} {w b : List Token} {names : List String} {body : List Stmt}
      (ht : t.kind = .fnWord) (hu : u.kind = .identifier) (hv : v.kind = .openParen)
      (hnames : Derives .parameters w names) (hx : x.kind = .closeParen)
      (hbody : Derives .block b body) :
      Derives .statement ([t, u, v] ++ w ++ [x] ++ b) [.fnDecl u.text names body]
  | bareReturn {t : Token} (ht : t.kind = .returnWord) : Derives .statement [t] [.ret .omitted]
  | returnOf {t : Token} {w : List Token} {e : Expr} (ht : t.kind = .returnWord)
      (h : Derives .expression w e) : Derives .statement ([t] ++ w) [.ret e]
  | ifThen {t u v : Token} {w b : List Token} {test : Expr} {body : List Stmt}
      (ht : t.kind = .ifWord) (hu : u.kind = .openParen) (htest : Derives .expression w test)
      (hv : v.kind = .closeParen) (hbody : Derives .block b body) :
      Derives .statement ([t, u] ++ w ++ [v] ++ b) [.ifThen test body]
  | whileDo {t u v : Token} {w b : List Token} {test : Expr} {body : List Stmt}
      (ht : t.kind = .whileWord) (hu : u.kind = .openParen) (htest : Derives .expression w test)
      (hv : v.kind = .closeParen) (hbody : Derives .block b body) :
      Derives .statement ([t, u] ++ w ++ [v] ++ b) [.whileDo test body]
  | plain {w : List Token} {e : Expr} (h : Derives .expression w e) :
      Derives .statement w [.expr e]
  | blockOf {t u : Token} {w : List Token} {ss : List Stmt} (ht : t.kind = .openBrace)
      (h : Derives .statements w ss) (hu : u.kind = .closeBrace) :
      Derives .block ([t] ++ w ++ [u]) ss
  | noStatements : Derives .statements [] []
  | semicolon {t : Token} {w : List Token} {ss : List Stmt} (ht : t.kind = .semicolon)
      (h : Derives .statements w ss) : Derives .statements ([t] ++ w) ss
  | moreStatements {u w : List Token} {ss rest : List Stmt} (hs : Derives .statement u ss)
      (h : Derives .statements w rest) : Derives .statements (u ++ w) (ss ++ rest)

end Scriptlet.Proofs.Grammar
