/-! # Help -/

namespace TripleIndex.Command

/-- The commands that have a page of help, and the page of them all. -/
inductive Page where
  | all
  | query
  | subjects
  | list
  | ingest
  | help
deriving DecidableEq, Repr

namespace Page

def text : Page → String
  | all => "Query and populate a graph index of RDF triples

Usage: graph-index [OPTIONS] <COMMAND>

Commands:
  query     Match `<subject> <predicate> <object>`; reads stdin lines when no query is given
  subjects  List typed subjects, optionally only those of one type
  list      List every indexed identifier
  ingest    Add `\x7bidentifier, triples\x7d` records from a JSON Lines file
  help      Print this message or the help of the given subcommand(s)

Options:
  -s, --storage-path <STORAGE_PATH>  Directory holding the index [default: data/graphs]
      --index-key <INDEX_KEY>        Storage key of the JSON Lines index [default: index.jsonl]
      --namespaces <NAMESPACES>      JSON file of extra `\"prefix\": \"namespace\"` pairs
  -h, --help                         Print help
"
  | query => "Match `<subject> <predicate> <object>`; reads stdin lines when no query is given

Usage: graph-index query [OPTIONS] [LINE]

Arguments:
  [LINE]  \n
Options:
      --prefix <PREFIX>          Keep identifiers starting with this text
      --limit <LIMIT>            Maximum number of identifiers (0 = unlimited)
      --max-tokens <MAX_TOKENS>  Cumulative token budget
  -h, --help                     Print help
"
  | subjects => "List typed subjects, optionally only those of one type

Usage: graph-index subjects [TYPE_FILTER]

Arguments:
  [TYPE_FILTER]  \n
Options:
  -h, --help  Print help
"
  | list => "List every indexed identifier

Usage: graph-index list

Options:
  -h, --help  Print help
"
  | ingest => "Add `\x7bidentifier, triples\x7d` records from a JSON Lines file

Usage: graph-index ingest <FILE>

Arguments:
  <FILE>  \n
Options:
  -h, --help  Print help
"
  | help => "Print this message or the help of the given subcommand(s)

Usage: graph-index help [COMMAND]...

Arguments:
  [COMMAND]...  Print help for the subcommand(s)
"

end Page

end TripleIndex.Command
