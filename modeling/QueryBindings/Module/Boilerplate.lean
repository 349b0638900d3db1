/-!
The fixed text around the generated declarations.

The text before them says where the file comes from and imports what the declarations use. The text
behind them defines the functions that every operation is exported through, and the hooks that run
them. Subscriptions add to both ends.

Imports and definitions are kept with the names that they bind, since generated declarations share
one module with them.
-/
namespace QueryBindings

/-- What a name stands for: something to compute with, a type, or either. A namespace is something to
compute with. -/
inductive Meaning
  | value
  | type
  | both
deriving DecidableEq

namespace Meaning

def isValue : Meaning → Bool
  | value => true
  | type => false
  | both => true

def isType : Meaning → Bool
  | value => false
  | type => true
  | both => true

end Meaning

structure ImportedName where
  name : String
  meaning : Meaning
deriving DecidableEq

/-- An import from a package: of everything under one name, of what the package exports by default,
of named exports, or of the last two together. -/
inductive Import
  | everything (name : ImportedName) (package : String)
  | default (name : ImportedName) (package : String)
  | named (names : List ImportedName) (package : String)
  | defaultAndNamed (name : ImportedName) (names : List ImportedName) (package : String)
deriving DecidableEq

namespace Import

def names : Import → List ImportedName
  | everything n _ => [n]
  | default n _ => [n]
  | named ns _ => ns
  | defaultAndNamed n ns _ => n :: ns

def ending (package : String) : String := " from '" ++ package ++ "'\n"

def text : Import → String
  | everything n package => "import * as " ++ n.name ++ ending package
  | default n package => "import " ++ n.name ++ ending package
  | named ns package =>
    "import \x7b " ++ String.intercalate ", " (ns.map (·.name)) ++ " \x7d" ++ ending package
  | defaultAndNamed n ns package =>
    "import " ++ n.name ++ ", \x7b\n" ++ String.join (ns.map fun m => "  " ++ m.name ++ ",\n") ++
      "\x7d" ++ ending package

end Import

inductive Keyword
  | type
  | constant
  | function
  | exported
deriving DecidableEq

namespace Keyword

def text : Keyword → String
  | type => "type"
  | constant => "const"
  | function => "function"
  | exported => "export function"

def meaning : Keyword → Meaning
  | type => .type
  | constant => .value
  | function => .value
  | exported => .value

end Keyword

/-- A definition of the fixed text: the lines before it, its name, and its lines from the name on.
-/
structure FixedDefinition where
  lead : List String
  keyword : Keyword
  name : String
  rest : List String
deriving DecidableEq

namespace FixedDefinition

def linesText (lines : List String) : String := String.join (lines.map (· ++ "\n"))

def text (d : FixedDefinition) : String :=
  linesText d.lead ++ d.keyword.text ++ " " ++ d.name ++ linesText d.rest

end FixedDefinition

namespace Boilerplate

def disclaimer : String :=
  "/*\n" ++
    " * This file was generated by hooksgen.\n" ++
    " * Any changes made to the file will be overwritten.\n" ++
    " */\n"

def imports : List Import :=
  [.everything ⟨"React", .value⟩ "react",
    .named [⟨"createContext", .value⟩, ⟨"useEffect", .value⟩, ⟨"useState", .value⟩,
      ⟨"useContext", .value⟩] "react",
    .defaultAndNamed ⟨"ApolloClient", .both⟩ [⟨"MutationOptions", .type⟩,
      ⟨"ObservableQuery", .both⟩, ⟨"WatchQueryOptions", .type⟩, ⟨"ApolloCurrentResult", .type⟩]
      "apollo-client",
    .named [⟨"FetchResult", .type⟩] "apollo-link",
    .named [⟨"DocumentNode", .type⟩] "graphql",
    .default ⟨"gql", .value⟩ "graphql-tag"]

def subscriptionImports : List Import :=
  [.named [⟨"SubscriptionOptions", .type⟩] "apollo-client",
    .named [⟨"Observable", .both⟩] "apollo-link"]

/-- What queries and mutations run through. -/
def runtime : List FixedDefinition := [
  { lead := ["/*", " * Boilerplate", " */", ""]
    keyword := .type
    name := "Omit"
    rest := ["<T, K> = Pick<T, Exclude<keyof T, K>>"] },
  { lead := []
    keyword := .type
    name := "QueryOpts"
    rest := ["<V> = Omit<WatchQueryOptions<V>, 'query'>"] },
  { lead := []
    keyword := .type
    name := "MutateOpts"
    rest := ["<D, V> = Omit<MutationOptions<D, V>, 'mutation'>"] },
  { lead := ["", "// The ApolloClient used by every hook below is read from this context."]
    keyword := .type
    name := "ContextType"
    rest := [" = \x7b apolloClient?: ApolloClient<any> \x7d"] },
  { lead := []
    keyword := .constant
    name := "apolloContext"
    rest := [" = createContext<ContextType>(\x7b\x7d)"] },
  { lead := ["",
      "// Must be rendered above every component that uses the hooks in this file."]
    keyword := .exported
    name := "ApolloHooksProvider"
    rest := ["(\x7b",
      "  children,",
      "  apolloClient,",
      "\x7d: \x7b",
      "  children?: React.ReactNode",
      "  apolloClient: ApolloClient<any> | undefined",
      "\x7d) \x7b",
      "  const elementType = apolloContext.Provider",
      "  const elementProps: React.ProviderProps<ContextType> = \x7b",
      "    value: \x7b apolloClient \x7d,",
      "  \x7d",
      "  return React.createElement(elementType, elementProps, children)",
      "\x7d"] },
  { lead := ["",
      "// Turns a query document into a function that takes options and returns a",
      "// query ready to be passed to useApolloQuery."]
    keyword := .function
    name := "defineQuery"
    rest := ["<V, D>(doc: DocumentNode) \x7b",
      "  return function configureQuery(opts: QueryOpts<V> = \x7b\x7d) \x7b",
      "    return function executeQuery(client: ApolloClient<any>) \x7b",
      "      return client.watchQuery<D>(\x7b query: doc, ...opts \x7d)",
      "    \x7d",
      "  \x7d",
      "\x7d"] },
  { lead := ["",
      "// Watches a query configured through the exported function of the same name",
      "// as the query operation. Rerenders the calling component whenever the query",
      "// result changes. Subject to the rules of hooks."]
    keyword := .exported
    name := "useApolloQuery"
    rest := ["<D, V>(",
      "  configuredQuery: (client: ApolloClient<any>) => ObservableQuery<D, V>",
      "): [ApolloCurrentResult<D>, ObservableQuery<D, V>] \x7b",
      "  const \x7b apolloClient \x7d = useContext(apolloContext)",
      "  if (!apolloClient) throw 'No ApolloClient provided'",
      "",
      "  const query = configuredQuery(apolloClient)",
      "",
      "  const [result, setResult] = useState(query.currentResult())",
      "  useEffect(() => \x7b",
      "    const subscription = query.subscribe(setResult)",
      "    return () => subscription.unsubscribe()",
      "  \x7d, [])",
      "",
      "  return [result, query]",
      "\x7d"] },
  { lead := ["",
      "// Turns a mutation document into a function that takes options and returns a",
      "// mutation ready to be passed to useApolloMutation."]
    keyword := .function
    name := "defineMutation"
    rest := ["<V, D>(mutation: DocumentNode) \x7b",
      "  return function configureMutation(opts: MutateOpts<D, V> = \x7b\x7d) \x7b",
      "    return function loadMutation(client: ApolloClient<any>) \x7b",
      "      return function executeMutation(opts2: MutateOpts<D, V> = \x7b\x7d) \x7b",
      "        return client.mutate<D>(\x7b mutation, ...opts, ...opts2 \x7d)",
      "      \x7d",
      "    \x7d",
      "  \x7d",
      "\x7d"] },
  { lead := ["",
      "// Returns the mutate function for a mutation configured through the exported",
      "// function of the same name as the mutation operation. Subject to the rules of",
      "// hooks."]
    keyword := .exported
    name := "useApolloMutation"
    rest := ["<D, V>(",
      "  configuredMutation: (",
      "    client: ApolloClient<any>",
      "  ) => (opts?: MutateOpts<D, V>) => Promise<FetchResult<D>>",
      ") \x7b",
      "  const \x7b apolloClient \x7d = useContext(apolloContext)",
      "  if (!apolloClient) throw 'No ApolloClient provided'",
      "  return configuredMutation(apolloClient)",
      "\x7d"] }]

def subscriptionRuntime : List FixedDefinition := [
  { lead := []
    keyword := .type
    name := "SubscribeOpts"
    rest := ["<V> = Omit<SubscriptionOptions<V>, 'query'>"] },
  { lead := ["",
      "// Turns a subscription document into a function that takes options and returns",
      "// a subscription ready to be passed to useApolloSubscription."]
    keyword := .function
    name := "defineSubscription"
    rest := ["<V, D>(subscription: DocumentNode) \x7b",
      "  return function configureSubscription(opts: SubscribeOpts<V> = \x7b\x7d) \x7b",
      "    return function executeSubscription(client: ApolloClient<any>) \x7b",
      "      return client.subscribe<D, V>(\x7b query: subscription, ...opts \x7d)",
      "    \x7d",
      "  \x7d",
      "\x7d"] },
  { lead := ["",
      "// Returns the latest event of a subscription configured through the exported",
      "// function of the same name as the subscription operation. Rerenders the",
      "// calling component on every event. Subject to the rules of hooks."]
    keyword := .exported
    name := "useApolloSubscription"
    rest := ["<D>(",
      "  configuredSubscription: (",
      "    client: ApolloClient<any>",
      "  ) => Observable<FetchResult<D>>",
      "): FetchResult<D> | undefined \x7b",
      "  const \x7b apolloClient \x7d = useContext(apolloContext)",
      "  if (!apolloClient) throw 'No ApolloClient provided'",
      "",
      "  const [result, setResult] = useState<FetchResult<D> | undefined>(undefined)",
      "  useEffect(() => \x7b",
      "    const subscription = configuredSubscription(apolloClient).subscribe(setResult)",
      "    return () => subscription.unsubscribe()",
      "  \x7d, [])",
      "",
      "  return result",
      "\x7d"] }]

def importsText (imports : List Import) : String := String.join (imports.map Import.text)

def definitionsText (definitions : List FixedDefinition) : String :=
  String.join (definitions.map FixedDefinition.text)

end Boilerplate

end QueryBindings
