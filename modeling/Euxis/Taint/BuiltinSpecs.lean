import Euxis.Taint.Code

/-!
# The specs that come with the analyzer: `libs/taint/src/builtin_specs.cpp`
-/

namespace Euxis.Taint

def builtinSources : List SourceSpec :=
  [{ id := ascii "c.argv", languages := [.c, .cpp], pattern := ascii "argv" },
   { id := ascii "c.getenv", languages := [.c, .cpp], pattern := ascii "getenv" },
   { id := ascii "c.scanf", languages := [.c, .cpp], pattern := ascii "scanf" },
   { id := ascii "c.gets", languages := [.c, .cpp], pattern := ascii "gets" },
   { id := ascii "rs.env_var", languages := [.rust], pattern := ascii "env::var" },
   { id := ascii "rs.args", languages := [.rust], pattern := ascii "env::args" },
   { id := ascii "rs.read", languages := [.rust], pattern := ascii "read_line" },
   { id := ascii "go.getenv", languages := [.go], pattern := ascii "os.Getenv" },
   { id := ascii "go.r_form", languages := [.go], pattern := ascii "r.FormValue" },
   { id := ascii "go.flag_string", languages := [.go], pattern := ascii "flag.String" },
   { id := ascii "py.input", languages := [.python], pattern := ascii "input(" },
   { id := ascii "py.environ", languages := [.python], pattern := ascii "os.environ" },
   { id := ascii "py.argv", languages := [.python], pattern := ascii "sys.argv" },
   { id := ascii "py.request", languages := [.python], pattern := ascii "request." },
   { id := ascii "js.req_body", languages := [.javaScript, .typeScript],
     pattern := ascii "req.body" },
   { id := ascii "js.req_query", languages := [.javaScript, .typeScript],
     pattern := ascii "req.query" },
   { id := ascii "js.req_params", languages := [.javaScript, .typeScript],
     pattern := ascii "req.params" },
   { id := ascii "js.location", languages := [.javaScript, .typeScript],
     pattern := ascii "window.location" },
   { id := ascii "java.req_param", languages := [.java], pattern := ascii "getParameter" },
   { id := ascii "java.getenv", languages := [.java], pattern := ascii "System.getenv" }]

def builtinSinks : List SinkSpec :=
  [{ id := ascii "c.system", languages := [.c, .cpp], pattern := ascii "system",
     cwe := some (ascii "CWE-78"),
     owasp := some .a03SupplyChainFailures, severity := .high },
   { id := ascii "c.popen", languages := [.c, .cpp], pattern := ascii "popen",
     cwe := some (ascii "CWE-78"),
     owasp := some .a03SupplyChainFailures, severity := .high },
   { id := ascii "c.exec", languages := [.c, .cpp], pattern := ascii "execl",
     cwe := some (ascii "CWE-78"),
     owasp := some .a03SupplyChainFailures, severity := .high },
   { id := ascii "c.sprintf", languages := [.c, .cpp], pattern := ascii "sprintf",
     cwe := some (ascii "CWE-120"),
     owasp := none, severity := .high },
   { id := ascii "rs.command", languages := [.rust], pattern := ascii "Command::new",
     cwe := some (ascii "CWE-78"),
     owasp := none, severity := .high },
   { id := ascii "rs.unsafe", languages := [.rust], pattern := ascii "unsafe",
     cwe := some (ascii "CWE-1357"),
     owasp := none, severity := .medium },
   { id := ascii "go.exec", languages := [.go], pattern := ascii "exec.Command",
     cwe := some (ascii "CWE-78"),
     owasp := none, severity := .high },
   { id := ascii "go.sql_exec", languages := [.go], pattern := ascii ".Exec(",
     cwe := some (ascii "CWE-89"),
     owasp := none, severity := .high },
   { id := ascii "py.eval", languages := [.python], pattern := ascii "eval(",
     cwe := some (ascii "CWE-94"),
     owasp := some .a03SupplyChainFailures, severity := .critical },
   { id := ascii "py.exec", languages := [.python], pattern := ascii "exec(",
     cwe := some (ascii "CWE-94"),
     owasp := none, severity := .critical },
   { id := ascii "py.subprocess", languages := [.python], pattern := ascii "subprocess.",
     cwe := some (ascii "CWE-78"),
     owasp := none, severity := .high },
   { id := ascii "py.os_system", languages := [.python], pattern := ascii "os.system",
     cwe := some (ascii "CWE-78"),
     owasp := none, severity := .high },
   { id := ascii "py.pickle", languages := [.python], pattern := ascii "pickle.loads",
     cwe := some (ascii "CWE-502"),
     owasp := some .a08DataIntegrityFailures, severity := .critical },
   { id := ascii "js.eval", languages := [.javaScript, .typeScript], pattern := ascii "eval(",
     cwe := some (ascii "CWE-94"),
     owasp := none, severity := .critical },
   { id := ascii "js.innerhtml", languages := [.javaScript, .typeScript],
     pattern := ascii "innerHTML", cwe := some (ascii "CWE-79"),
     owasp := none, severity := .high },
   { id := ascii "js.document_write", languages := [.javaScript, .typeScript],
     pattern := ascii "document.write", cwe := some (ascii "CWE-79"),
     owasp := none, severity := .high },
   { id := ascii "js.exec_sync", languages := [.javaScript, .typeScript],
     pattern := ascii "execSync", cwe := some (ascii "CWE-78"),
     owasp := none, severity := .high },
   { id := ascii "java.runtime_exec", languages := [.java],
     pattern := ascii "Runtime.getRuntime().exec", cwe := some (ascii "CWE-78"),
     owasp := none, severity := .high },
   { id := ascii "java.stmt_exec", languages := [.java], pattern := ascii "Statement",
     cwe := some (ascii "CWE-89"),
     owasp := none, severity := .high }]

def builtinSanitizers : List SanitizerSpec :=
  [{ id := ascii "html.escape_py", languages := [.python], pattern := ascii "html.escape" },
   { id := ascii "html.escape_js", languages := [.javaScript, .typeScript],
     pattern := ascii "encodeURIComponent" },
   { id := ascii "sql.prepared_java", languages := [.java], pattern := ascii "PreparedStatement" },
   { id := ascii "shlex_quote", languages := [.python], pattern := ascii "shlex.quote" },
   { id := ascii "go.html_escape", languages := [.go], pattern := ascii "html.EscapeString" },
   { id := ascii "rs.shell_words", languages := [.rust], pattern := ascii "shell_words::quote" }]

def builtinSpecs : TaintSpec :=
  { name := ascii "euxis-builtin", sources := builtinSources, sinks := builtinSinks,
    sanitizers := builtinSanitizers }

end Euxis.Taint
