/-!
# The table of compiler options

Which options the TypeScript compiler knows, and what kind of value each of them
takes. The options are listed by kind; `CompilerOptions.kind?` looks one up.
-/

namespace DocPlan.CompilerOptions

/-- The kind of value that an option takes. -/
inductive OptionKind where
  | boolean
  | text
  | number
  | textList
  /-- A list of texts in which case does not count. -/
  | lowercaseList
  | object
  | objectList
  /-- One of some texts; case does not count. -/
  | choice (allowed : List String)
  deriving DecidableEq, Repr

/-- The name of a kind in messages. -/
def OptionKind.typeName : OptionKind → String
  | .boolean => "boolean"
  | .text => "string"
  | .number => "number"
  | .textList => "list"
  | .lowercaseList => "list"
  | .object => "object"
  | .objectList => "list of objects"
  | .choice _ => "string"

/-! ## Options with a fixed choice -/

def targets : List String :=
  ["es3", "es5", "es6", "es2015", "es2016", "es2017", "es2018", "es2019", "es2020", "es2021",
   "es2022", "es2023", "es2024", "es2025", "esnext"]

def modules : List String :=
  ["none", "commonjs", "amd", "umd", "system", "es6", "es2015", "es2020", "es2022", "esnext",
   "node16", "node18", "node20", "nodenext", "preserve"]

def moduleResolutions : List String :=
  ["classic", "node", "node10", "node16", "nodenext", "bundler"]

def jsxModes : List String :=
  ["preserve", "react", "react-native", "react-jsx", "react-jsxdev"]

def newLines : List String :=
  ["crlf", "lf"]

def moduleDetections : List String :=
  ["auto", "legacy", "force"]

def unusedImports : List String :=
  ["remove", "preserve", "error"]

def choiceOptions : List (String × List String) :=
  [("importsNotUsedAsValues", unusedImports),
   ("jsx", jsxModes),
   ("module", modules),
   ("moduleDetection", moduleDetections),
   ("moduleResolution", moduleResolutions),
   ("newLine", newLines),
   ("target", targets)]

/-! ## Options by kind -/

def booleanOptions : List String :=
  ["allowArbitraryExtensions", "allowImportingTsExtensions", "allowJs",
   "allowSyntheticDefaultImports", "allowUmdGlobalAccess", "allowUnreachableCode",
   "allowUnusedLabels", "alwaysStrict", "assumeChangesOnlyAffectDirectDependencies", "checkJs",
   "composite", "declaration", "declarationMap", "disableReferencedProjectLoad",
   "disableSizeLimit", "disableSolutionSearching", "disableSourceOfProjectReferenceRedirect",
   "downlevelIteration", "emitBOM", "emitDeclarationOnly", "emitDecoratorMetadata",
   "erasableSyntaxOnly", "esModuleInterop", "exactOptionalPropertyTypes",
   "experimentalDecorators", "explainFiles", "extendedDiagnostics",
   "forceConsistentCasingInFileNames", "importHelpers", "incremental", "inlineSourceMap",
   "inlineSources", "isolatedDeclarations", "isolatedModules", "keyofStringsOnly",
   "libReplacement", "listEmittedFiles", "listFiles", "noCheck", "noEmit", "noEmitHelpers",
   "noEmitOnError", "noErrorTruncation", "noFallthroughCasesInSwitch", "noImplicitAny",
   "noImplicitOverride", "noImplicitReturns", "noImplicitThis", "noImplicitUseStrict", "noLib",
   "noPropertyAccessFromIndexSignature", "noResolve", "noStrictGenericChecks",
   "noUncheckedIndexedAccess", "noUncheckedSideEffectImports", "noUnusedLocals",
   "noUnusedParameters", "preserveConstEnums", "preserveSymlinks", "preserveValueImports",
   "preserveWatchOutput", "pretty", "removeComments", "resolveJsonModule",
   "resolvePackageJsonExports", "resolvePackageJsonImports", "rewriteRelativeImportExtensions",
   "skipDefaultLibCheck", "skipLibCheck", "sourceMap", "strict", "strictBindCallApply",
   "strictBuiltinIteratorReturn", "strictFunctionTypes", "strictNullChecks",
   "strictPropertyInitialization", "stripInternal", "suppressExcessPropertyErrors",
   "suppressImplicitAnyIndexErrors", "traceResolution", "useDefineForClassFields",
   "useUnknownInCatchVariables", "verbatimModuleSyntax"]

def textOptions : List String :=
  ["baseUrl", "charset", "declarationDir", "generateCpuProfile", "generateTrace", "jsxFactory",
   "jsxFragmentFactory", "jsxImportSource", "locale", "mapRoot", "out", "outDir", "outFile",
   "reactNamespace", "rootDir", "sourceRoot", "tsBuildInfoFile"]

def numberOptions : List String :=
  ["maxNodeModuleJsDepth"]

def textListOptions : List String :=
  ["customConditions", "moduleSuffixes", "rootDirs", "typeRoots", "types"]

def lowercaseListOptions : List String :=
  ["lib"]

def objectOptions : List String :=
  ["paths"]

def objectListOptions : List String :=
  ["plugins"]

/-- Options of one kind. -/
def ofKind (kind : OptionKind) (names : List String) : List (String × OptionKind) :=
  names.map fun name => (name, kind)

/-- Every known option and its kind. -/
def table : List (String × OptionKind) :=
  ofKind .boolean booleanOptions ++ ofKind .text textOptions ++
    ofKind .number numberOptions ++ ofKind .textList textListOptions ++
    ofKind .lowercaseList lowercaseListOptions ++ ofKind .object objectOptions ++
    ofKind .objectList objectListOptions ++
    choiceOptions.map fun entry => (entry.1, .choice entry.2)

/-- The kind of an option, if it is known. -/
def kind? (name : String) : Option OptionKind := table.lookup name

end DocPlan.CompilerOptions
