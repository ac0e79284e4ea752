import MayAlias.Graph

/-!
# Drawings

A points-to graph is drawn with a vertex for every object and every tracked variable.  The drawing
is a value of its own, `Drawing`, which `Drawing.render` writes in the DOT language.
-/

namespace MayAlias.Report

/-- A directed graph with labels; vertices are numbered in their order. -/
structure Drawing where
  /-- The labels of the vertices. -/
  vertices : List String
  /-- Source, target and label of the edges. -/
  edges : List (Nat × Nat × String)

namespace Drawing

/-- The number of an object's vertex among the objects drawn. -/
def vertexOf? (o : ObjectId) : List ObjectId → Option Nat
  | [] => none
  | p :: rest => if p = o then some 0 else (vertexOf? o rest).map (· + 1)

/-- The edges from a variable's vertex to those of its pointees, without a label. -/
def pointeeEdges (objects : List ObjectId) (vertex : Nat) (pts : ObjectSet) :
    List (Nat × Nat × String) :=
  (Graph.sortedObjects pts).filterMap fun o => (vertexOf? o objects).map fun v => (vertex, v, "")

/-- The edge that draws a field edge, labelled with the field. -/
def fieldEdge? (objects : List ObjectId) (e : Edge) : Option (Nat × Nat × String) := do
  let s ← vertexOf? e.src objects
  let t ← vertexOf? e.dst objects
  some (s, t, e.field)

/-- The drawing of a graph: the objects in order, then the variables by name. -/
def ofGraph (sites : SiteTable) (g : Graph) : Drawing :=
  let objects := Graph.sortedObjects g.objects
  let vars := g.sortedVars
  { vertices := objects.map sites.render ++ vars.map Prod.fst
    edges :=
      (vars.zipIdx objects.length).flatMap
          (fun ((_, pts), vertex) => pointeeEdges objects vertex pts)
        ++ g.sortedEdges.filterMap (fieldEdge? objects) }

/-- A character inside a label. -/
def escapeChar (c : Char) : List Char :=
  if c = '"' then ['\\', '"']
  else if c = '\\' then ['\\', '\\']
  else if c = '\n' then ['\\', 'l']
  else [c]

/-- A label with its attribute. -/
def labelText (label : String) : String :=
  "[ label = \"" ++ String.ofList (label.toList.flatMap escapeChar) ++ "\" ]"

/-- The line of a vertex. -/
def vertexLine (label : String) (i : Nat) : String :=
  "    " ++ toString i ++ " " ++ labelText label ++ "\n"

/-- The line of an edge. -/
def edgeLine (e : Nat × Nat × String) : String :=
  "    " ++ toString e.1 ++ " -> " ++ toString e.2.1 ++ " " ++ labelText e.2.2 ++ "\n"

/-- The drawing in the DOT language. -/
def render (d : Drawing) : String :=
  "digraph \x7b\n" ++ String.join (d.vertices.zipIdx.map fun (label, i) => vertexLine label i)
    ++ String.join (d.edges.map edgeLine) ++ "\x7d\n"

end Drawing

/-- The graph in the DOT language. -/
def dot (sites : SiteTable) (g : Graph) : String := (Drawing.ofGraph sites g).render

end MayAlias.Report
