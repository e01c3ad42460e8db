/-
  `src/config/env.js`: the configuration, read from the environment and checked once at boot.

  All problems are collected, and any of them keeps the process from starting.  What is checked of a
  number is that it is an integer: zero and negative values pass.

  The functions are parametrised by `env` and are total: `config` is the object that the module
  builds along the way, and `build` gives it out only where `problems` is empty.  So a fact about
  the configuration of a process that runs is one about `config env` with no problem in it
  (`of_build`).

  The numbers of the outbox are what matters later: `outboxConfig` takes any integer for the poll
  interval and the batch size, zero and negative ones included (`RelayLoop`).
-/
import SmartPatents.Lib.Numeral

namespace SmartPatents.Environment

/-- `process.env`. -/
abbrev Env := String → Option String

/-- `config.storage`. -/
structure StorageConfig where
  endpoint : Option String
  region : String
  bucket : Option String
  accessKeyId : Option String
  secretAccessKey : Option String
  forcePathStyle : Bool
  uploadUrlTtlSeconds : Int
  downloadUrlTtlSeconds : Int
  maxUploadBytes : Int
  allowedUploadTypes : List String

/-- `config.kafka`. -/
structure KafkaConfig where
  brokers : List String
  clientId : String
  patentEventsTopic : String

/-- `config.outbox`, the three numbers of the relay. -/
structure OutboxConfig where
  pollIntervalMs : Int
  batchSize : Int
  maxAttempts : Int

/-- `config`, everything the module exports. -/
structure Config where
  nodeEnv : String
  isProduction : Bool
  isTest : Bool
  port : Int
  databaseUrl : Option String
  corsOrigins : List String
  jsonBodyLimit : String
  storage : StorageConfig
  kafka : KafkaConfig
  outbox : OutboxConfig

/-! ## Reading one value -/

/-- `value || fallback` on a variable: the empty string is as good as none. -/
def present (value : Option String) : Option String := value.filter fun text => text != ""

/-- `parseList`: a comma-separated list, trimmed, without empty items. -/
def parseList (value : Option String) (fallback : List String) : List String :=
  match present value with
  | none => fallback
  | some text =>
    ((text.toList.splitOn ',').map fun item => String.ofList (Numeral.trim item)).filter (· != "")

/-- `none` is `NaN`. -/
def parseInteger (value : Option String) (fallback : Int) : Option Int :=
  match present value with
  | none => some fallback
  | some text => Numeral.integer text

/-- `parseBoolean`: anything but `true` and `1` is false, once something is given. -/
def parseBoolean (value : Option String) (fallback : Bool) : Bool :=
  match present value with
  | none => fallback
  | some text => text == "true" || text == "1"

/-! ## `build` -/

section Build

variable (env : Env)

/-- The value of `integer(name, fallback)`, if it is one. -/
def integer (name : String) (fallback : Int) : Int := (parseInteger (env name) fallback).getD 0

/-- The problem that `integer(name, fallback)` reports. -/
def integerProblem (name : String) (fallback : Int) : List String :=
  if (parseInteger (env name) fallback).isNone then [name ++ " must be an integer"] else []

/-- The problem that `require_(name)` reports. -/
def requireProblem (name : String) : List String :=
  if (present (env name)).isNone then [name ++ " is required"] else []

/-- `NODE_ENV`, with its default. -/
def nodeEnv : String := (present (env "NODE_ENV")).getD "development"

/-- Tests substitute fakes for storage and Kafka. -/
def externalsRequired : Bool := nodeEnv env != "test"

/-- `config.storage` as the environment gives it. Outside the tests the bucket has no default. -/
def storageConfig : StorageConfig where
  endpoint := env "S3_ENDPOINT"
  region := (present (env "S3_REGION")).getD "us-east-1"
  bucket :=
    if externalsRequired env then env "S3_BUCKET"
    else some ((present (env "S3_BUCKET")).getD "patents")
  accessKeyId := env "S3_ACCESS_KEY_ID"
  secretAccessKey := env "S3_SECRET_ACCESS_KEY"
  forcePathStyle := parseBoolean (env "S3_FORCE_PATH_STYLE") true
  uploadUrlTtlSeconds := integer env "UPLOAD_URL_TTL_SECONDS" 900
  downloadUrlTtlSeconds := integer env "DOWNLOAD_URL_TTL_SECONDS" 300
  maxUploadBytes := integer env "UPLOAD_MAX_BYTES" (50 * 1024 * 1024)
  allowedUploadTypes := parseList (env "ALLOWED_UPLOAD_TYPES") ["application/pdf", "text/plain"]

/-- `config.kafka` as the environment gives it. -/
def kafkaConfig : KafkaConfig where
  brokers :=
    parseList (env "KAFKA_BROKERS") (if externalsRequired env then [] else ["localhost:29092"])
  clientId := (present (env "KAFKA_CLIENT_ID")).getD "patents-backend"
  patentEventsTopic := (present (env "PATENT_EVENTS_TOPIC")).getD "patents.events"

/-- `config.outbox` as the environment gives it. -/
def outboxConfig : OutboxConfig where
  pollIntervalMs := integer env "OUTBOX_POLL_INTERVAL_MS" 1000
  batchSize := integer env "OUTBOX_BATCH_SIZE" 50
  maxAttempts := integer env "OUTBOX_MAX_ATTEMPTS" 10

/-- `config` as the environment gives it, before its problems are looked at. -/
def config : Config where
  nodeEnv := nodeEnv env
  isProduction := nodeEnv env == "production"
  isTest := nodeEnv env == "test"
  port := integer env "PORT" 5000
  databaseUrl := env "DATABASE_URL"
  corsOrigins := parseList (env "CORS_ORIGINS") []
  jsonBodyLimit := (present (env "JSON_BODY_LIMIT")).getD "1mb"
  storage := storageConfig env
  kafka := kafkaConfig env
  outbox := outboxConfig env

/-- Required where something would use them. -/
def externalsProblems : List String :=
  if externalsRequired env then
    ["S3_ENDPOINT", "S3_BUCKET", "S3_ACCESS_KEY_ID", "S3_SECRET_ACCESS_KEY"].flatMap
      (requireProblem env)
  else []

/-- No broker is named, outside the tests. -/
def brokersProblem : List String :=
  if externalsRequired env && (kafkaConfig env).brokers.isEmpty then
    ["KAFKA_BROKERS is required (comma-separated host:port list)"]
  else []

/-- No origin is named, in production. -/
def corsProblem : List String :=
  if (config env).isProduction && (config env).corsOrigins.isEmpty then
    ["CORS_ORIGINS is required in production (comma-separated origin list)"]
  else []

/-- In the order in which they are pushed. -/
def problems : List String :=
  integerProblem env "PORT" 5000 ++ requireProblem env "DATABASE_URL" ++ externalsProblems env ++
    integerProblem env "UPLOAD_URL_TTL_SECONDS" 900 ++
    integerProblem env "DOWNLOAD_URL_TTL_SECONDS" 300 ++
    integerProblem env "UPLOAD_MAX_BYTES" (50 * 1024 * 1024) ++
    integerProblem env "OUTBOX_POLL_INTERVAL_MS" 1000 ++
    integerProblem env "OUTBOX_BATCH_SIZE" 50 ++ integerProblem env "OUTBOX_MAX_ATTEMPTS" 10 ++
    brokersProblem env ++ corsProblem env

/-- The module as it loads: the configuration, or an error that lists every problem. -/
def build : Except String Config :=
  if (problems env).isEmpty then .ok (config env)
  else
    .error ("Invalid configuration:\n" ++
      "\n".intercalate ((problems env).map fun problem => "  - " ++ problem) ++
      "\n\nSee .env.example for the full list of expected values.")

end Build

variable {env : Env} {c : Config}

/-- A process that starts has no problem in its environment. -/
theorem of_build (h : build env = .ok c) : problems env = [] ∧ c = config env := by
  unfold build at h
  split at h
  · rename_i hnone
    exact ⟨List.isEmpty_iff.mp hnone, (Except.ok.inj h).symm⟩
  · cases h

theorem integer_of_noProblem {name : String} {fallback : Int}
    (h : integerProblem env name fallback = []) :
    parseInteger (env name) fallback = some (integer env name fallback) := by
  unfold integerProblem at h
  split at h
  · cases h
  · rename_i hsome
    rw [integer]
    cases hvalue : parseInteger (env name) fallback with
    | none => rw [hvalue] at hsome; exact absurd rfl hsome
    | some n => rfl

/-- An accepted environment has numbers for the relay. -/
theorem outbox_of_build (h : build env = .ok c) :
    parseInteger (env "OUTBOX_POLL_INTERVAL_MS") 1000 = some c.outbox.pollIntervalMs ∧
      parseInteger (env "OUTBOX_BATCH_SIZE") 50 = some c.outbox.batchSize ∧
      parseInteger (env "OUTBOX_MAX_ATTEMPTS") 10 = some c.outbox.maxAttempts := by
  obtain ⟨hnone, rfl⟩ := of_build h
  simp only [problems, List.append_eq_nil_iff] at hnone
  obtain ⟨⟨⟨⟨⟨-, hpoll⟩, hsize⟩, hattempts⟩, -⟩, -⟩ := hnone
  exact ⟨integer_of_noProblem hpoll, integer_of_noProblem hsize, integer_of_noProblem hattempts⟩

end SmartPatents.Environment
