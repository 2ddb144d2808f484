import DocPlan.Report

/-!
# Link plugins

A link plugin adds references into an external catalogue of an interface. Two
plugins that describe the same globals differently exclude each other.
-/

namespace DocPlan

inductive LinkPlugin where
  | dom
  | worker
  | node
  | deno
  deriving DecidableEq, Repr

namespace LinkPlugin

def all : List LinkPlugin := [.dom, .worker, .node, .deno]

/-- The name that requests use. -/
def name : LinkPlugin → String
  | .dom => "dom"
  | .worker => "worker"
  | .node => "node"
  | .deno => "deno"

/-- The module that the generator loads. -/
def module : LinkPlugin → String
  | .dom => "@dtsdoc/link-dom"
  | .worker => "@dtsdoc/link-worker"
  | .node => "@dtsdoc/link-node"
  | .deno => "@dtsdoc/link-deno"

def ofName? (name : String) : Option LinkPlugin := all.find? (·.name = name)

/-- Groups of which a run may use one plugin only. -/
def exclusiveGroups : List (List LinkPlugin) := [[.dom, .worker]]

/-- Fails on the first two plugins of a group that are both present. -/
def checkGroup (plugins group : List LinkPlugin) : Except Error Unit :=
  match group.filter (· ∈ plugins) with
  | first :: second :: _ => .error (.linkPluginConflict first.name second.name)
  | _ => .ok ()

/-- Fails when two plugins exclude each other. -/
def checkExclusive (plugins : List LinkPlugin) : Except Error Unit :=
  exclusiveGroups.forM (checkGroup plugins)

/-- Adds a plugin to those before it, unless it is there. -/
def addTo (plugins : List LinkPlugin) (plugin : LinkPlugin) : List LinkPlugin :=
  if plugin ∈ plugins then plugins else plugins ++ [plugin]

/-- Adds the plugin of a name; an unknown name is reported and left out. -/
def addNamed (plugins : List LinkPlugin) (name : String) : Noted (List LinkPlugin) :=
  match ofName? name with
  | some plugin => pure (addTo plugins plugin)
  | none => do
    let known := ", ".intercalate (all.map LinkPlugin.name)
    Noted.warn "UNKNOWN_LINK_PLUGIN"
      s!"unknown link plugin '{name}' ignored (known: {known})"
    return plugins

/-- The plugins of some names, each once. -/
def ofNames (names : List String) : Noted (List LinkPlugin) :=
  names.foldlM addNamed []

/-- The plugins of some names, none of which exclude each other. -/
def resolve (names : List String) : Report (List LinkPlugin) := do
  let plugins ← ofNames names
  checkExclusive plugins
  return plugins

end LinkPlugin

end DocPlan
